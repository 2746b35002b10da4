/-!
# Base64

Base64 writes bytes as characters that stand for six bits each, four of them for
three bytes. Equals signs fill up the last four; characters outside the alphabet
count for nothing. `isBase64` tells whether a text can be decoded.
-/

namespace RuleTree.Text

/-- Whether a character stands for six bits. -/
def isSextet (c : Char) : Bool := c.isAlphanum || c = '+' || c = '/'

/-- Whether a text ends between two groups of four, or fills up its last one with equals
signs; `place` tells how many characters of the group have been read, and `fills` how many
equals signs since. What follows a group that is filled up is not looked at. -/
def endsGroup (place fills : Nat) : List Char → Bool
  | [] => place = 0
  | c :: rest =>
    if isSextet c then endsGroup ((place + 1) % 4) 0 rest
    else if c = '=' && 2 ≤ place then 4 ≤ place + fills + 1 || endsGroup place (fills + 1) rest
    else endsGroup place fills rest

/-- Whether a text of ASCII characters is base64. -/
def isBase64 (cs : List Char) : Bool := cs.all (fun c => c.toNat < 128) && endsGroup 0 0 cs

end RuleTree.Text
