import RuleTree.Http.Framework
/-!
# A framework

The framework that the program runs in. The places are tried in the order in which they
are declared. A newline at the end of a path does not matter, unless it belongs to a
name; a path with slashes at its end is sent on to where it leads without them, unless it
is the root. A truth value may also be the number one or zero or a word, and every other
value is taken as it is.
-/

namespace RuleTree.Http

/-! ## Paths -/

/-- The name in a path of a form, empty if the form has none. -/
def Template.match? : Template → List Char → Option (List Char)
  | fixed path, cs => if cs = path.toList then some [] else none
  | named front back, cs =>
    let name := (cs.drop front.length).take (cs.length - front.length - back.length)
    if cs = front.toList ++ name ++ back.toList ∧ name ≠ [] ∧ '/' ∉ name then some name else none

/-- A text without one newline at its end. -/
def dropNewline (cs : List Char) : List Char :=
  if cs.getLast? = some '\n' then cs.dropLast else cs

/-- A text without the slashes at its end. -/
def dropSlashes (cs : List Char) : List Char := (cs.reverse.dropWhile (· = '/')).reverse

/-- The name in a path of a form, whether a newline follows or not. -/
def Template.accept? (t : Template) (cs : List Char) : Option (List Char) :=
  (t.match? cs).or (t.match? (dropNewline cs))

/-- The place that a declaration has for a method and a path. -/
def Declaration.accept? (d : Declaration) (method : String) (cs : List Char) :
    Option (Endpoint × String) :=
  if d.method = method then (d.template.accept? cs).map fun name => (d.endpoint, .ofList name)
  else none

/-- Whether some place has a path, with any method. -/
def hasPath (declared : List Declaration) (cs : List Char) : Bool :=
  declared.any fun d => (d.template.accept? cs).isSome

/-- The first place that is declared for a method and a path. -/
def dispatch (declared : List Declaration) (method path : String) :
    Except Response (Endpoint × String) :=
  let cs := path.toList
  match declared.findSome? fun d => d.accept? method cs with
  | some found => .ok found
  | none =>
    if hasPath declared cs then .error (.detail 405 "Method Not Allowed")
    else if cs ≠ ['/'] ∧ cs.getLast? = some '/' ∧ hasPath declared (dropSlashes cs) then
      .error (.bare 307)
    else .error (.detail 404 "Not Found")

/-! ## Fields -/

/-- The words that stand for true, in lower case. -/
def trueWords : List String := ["1", "t", "true", "on", "y", "yes"]

/-- The words that stand for false, in lower case. -/
def falseWords : List String := ["0", "f", "false", "off", "n", "no"]

/-- The truth value that a number or a word stands for. -/
def truth? : Value → Option Bool
  | .bool b => some b
  | .num n => if n.isZero then some false else if n.equal (.int 1) then some true else none
  | .str s =>
    if trueWords.contains s.toLower then some true
    else if falseWords.contains s.toLower then some false
    else none
  | _ => none

/-- The value that a field gets from what is written in it. -/
def Field.read? (f : Field) (v : Value) : Option Value :=
  if f.has v then some v
  else match f.kind with
  | .truth => (truth? v).map .bool
  | _ => none

/-- The value of a field among the entries of an object. -/
def Field.find? (f : Field) (entries : List (String × Value)) : Option Value :=
  match Entries.get? f.name entries with
  | some v => f.read? v
  | none => f.standard

/-- The values of fields in an object. -/
def validate (fields : List Field) : Value → Option (List Value)
  | .map _ entries => fields.mapM fun f => f.find? entries
  | _ => none

/-- The framework, with a bound on the values that it can write. -/
def Framework.standard (encodes : Value → Bool) : Framework where
  dispatch := Http.dispatch
  validate := Http.validate
  encodes := encodes

end RuleTree.Http
