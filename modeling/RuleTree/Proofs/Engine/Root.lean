import RuleTree.Proofs.Graph.Cycles
import RuleTree.Proofs.Graph.Flat
import RuleTree.Proofs.Rules.Listing
/-!
# A rule tree that is one expression

The only rule of such a tree has no segments in its address, and what it reads leaves no trace :
every edge leads from the empty segment to itself (`Graph.view_of_isExpression`). So the rule is
tracked like any other one, under the empty path, exactly if it reads nothing; else the walk from
it is a cycle at once (`Engine.tracksRoot_iff`).
-/

namespace RuleTree

namespace EdgeMap

/-- The edges from the empty segment to itself, as many as a number says. -/
def loops (n : Nat) : List (String × Value) :=
  if n = 0 then [] else [("", .ofTexts (List.replicate n ""))]

theorem insert_loops (n : Nat) : insert "" [""] (loops n) = loops (n + 1) := by
  have hput : insert "" [""] (loops n) = [("", addHere "" (ofTexts? (List.replicate n "")))] := by
    cases n <;> rfl
  rw [hput, addHere_ofTexts?, ← List.replicate_succ']
  rfl

/-- Insertions of nothing but the edge from the root to itself make a list of it. -/
theorem build_replicate (n : Nat) : build (List.replicate n ([""], "")) = loops n := by
  induction n with
  | zero => rfl
  | succ n ih =>
    rw [List.replicate_succ', build, List.foldl_append]
    show insert "" [""] (build _) = _
    rw [ih, insert_loops]

end EdgeMap

namespace Graph

open EdgeMap Rules

variable {rules : Value} {g : Graph} {paths : List String}

/-- Each path that the expression reads gives an edge from the empty segment to itself. -/
theorem view_of_isExpression (hr : rules.isExpression = true) (hg : ofRules rules = .ok g)
    (hpaths : (Expr.ofValue rules).dependencies = .ok paths) (direction : Direction) :
    g.view direction = .ofEntries (loops paths.length) := by
  obtain ⟨es, hes, rfl⟩ := exists_of_ofRules hg
  have hedges : es = List.replicate paths.length ⟨[""], [""]⟩ := by
    rw [edges_eq_flatMap hes, expressions_of_isExpression hr, List.flatMap_singleton]
    show (asked rules).map (fun _ => (⟨[""], [""]⟩ : Edge)) = _
    rw [asked_eq hpaths, List.map_const']
  have hreaders : byReader es = List.replicate paths.length ([""], "") := by
    rw [hedges, byReader, List.map_replicate]
    rfl
  have htargets : byTarget es = List.replicate paths.length ([""], "") := by
    rw [hedges, byTarget, List.map_replicate]
    rfl
  rw [ofEdges_eq, hreaders, htargets, build_replicate]
  cases direction with
  | forward | backward => rfl
  | undirected => cases paths <;> rfl

end Graph

namespace Engine

open EdgeMap Rules

variable {rules : Value} {settings : Settings} {e : Engine} {paths : List String}

/-- The rule at the empty path is tracked like any other rule : its edges are the paths that it
reads, it is among the readers of each of them, and the walk from it comes to no cycle. -/
structure TracksRoot (e : Engine) (paths : List String) : Prop where
  reads : edgeSets [] (e.graph.view .forward) =
    if paths = [] then [] else [("", .ofTexts paths)]
  readers : ∀ p ∈ paths, ∃ found,
    e.graph.edges (Path.ofText p) .backward = .ok found ∧ .str "" ∈ found
  acyclic : ∀ cycle, e.propagate (.str "") .forward ≠ .error (.propagation (.cycle cycle))

/-- A path without empty segments is none of the keys. -/
theorem edges_loops {g : Graph} {direction : Direction} {n : Nat}
    (hview : g.view direction = .ofEntries (loops n)) {path : Path} (hne : path ≠ [])
    (hsegments : ∀ s ∈ path, s ≠ "") (hwildcard : path.head? ≠ some Path.wildcard) :
    g.edges path direction = .ok [] := by
  obtain ⟨segment, rest, rfl⟩ := List.exists_cons_of_ne_nil hne
  have hsegment : segment ≠ Path.wildcard := fun h => hwildcard (congrArg some h)
  have hchild : (Value.ofEntries (loops n)).child? segment = .ok none := by
    have hempty : "" ≠ segment := (hsegments segment (by simp)).symm
    cases n with
    | zero => rfl
    | succ n =>
      show Except.ok (Entries.get? segment [("", _)]) = _
      rw [Entries.get?, if_neg hempty, Entries.get?]
  rw [Graph.edges, hview, Value.read_cons rfl hsegment, hchild]
  rfl

/-- The walk from the empty path takes the first edge back to it. -/
theorem propagate_loops {n : Nat} (hview : e.graph.view .forward = .ofEntries (loops n)) :
    e.propagate (.str "") .forward =
      if n = 0 then .ok [] else .error (.propagation (.cycle ["", ""])) := by
  have hedges : e.graph.edges [""] .forward = .ok ((List.replicate n "").map .str) := by
    rw [Graph.edges, hview]
    cases n <;> rfl
  have hpath : Path.ofValue (.str "") = .ok [""] := rfl
  have hsteps : e.graph.steps .forward [.str ""] (.str "") = _ :=
    Graph.steps_of_edges (by decide) hpath hedges
  cases n with
  | zero =>
    rw [propagate, Graph.propagate, Graph.chainBound, Graph.walk, hsteps]
    rfl
  | succ n =>
    rw [propagate, Graph.propagate, Graph.chainBound, Graph.walk, hsteps]
    rfl

/-- A rule tree that is one expression has the empty path as its only rule path, and all that its
graph holds are edges from this path to itself. So the paths that the expression reads have no
readers, and the rule is tracked like any other one exactly if it reads nothing. -/
theorem tracksRoot_iff (hr : rules.isExpression = true) (he : ofRules rules settings = .ok e)
    (hpaths : (Expr.ofValue rules).dependencies = .ok paths)
    (hsegments : ∀ p ∈ paths, ∀ s ∈ Path.ofText p, s ≠ "") :
    e.rulePaths = [""] ∧
      (∀ direction, edgeSets [] (e.graph.view direction) =
        if paths = [] then [] else [("", .ofTexts (List.replicate paths.length ""))]) ∧
      (∀ p ∈ paths, (Path.ofText p).head? ≠ some Path.wildcard →
        e.graph.edges (Path.ofText p) .backward = .ok []) ∧
      (e.propagate (.str "") .forward =
        if paths = [] then .ok [] else .error (.propagation (.cycle ["", ""]))) ∧
      (e.TracksRoot paths ↔ paths = []) := by
  obtain ⟨hrules, -, hg⟩ := ofRules_eq_ok he
  have hview := Graph.view_of_isExpression hr hg hpaths
  have hsets : ∀ direction, edgeSets [] (e.graph.view direction) =
      if paths = [] then [] else [("", .ofTexts (List.replicate paths.length ""))] := by
    intro direction
    rw [hview]
    cases paths <;> rfl
  have hpropagate : e.propagate (.str "") .forward =
      if paths = [] then .ok [] else .error (.propagation (.cycle ["", ""])) := by
    rw [propagate_loops (hview .forward)]
    cases paths <;> rfl
  refine ⟨?_, hsets, fun p hp hwildcard => ?_, hpropagate, fun htracks => ?_, ?_⟩
  · rw [rulePaths, hrules, Rules.paths, expressions_of_isExpression hr]
    rfl
  · exact edges_loops (hview .backward) (Path.ofText_ne_nil p) (hsegments p hp) hwildcard
  · by_contra hne
    exact htracks.acyclic _ (hpropagate.trans (if_neg hne))
  · rintro rfl
    refine ⟨hsets .forward, fun p hp => absurd hp List.not_mem_nil, fun cycle h => ?_⟩
    cases hpropagate.symm.trans h

/-- A product of constants. -/
def fixedPrice : Value := .ofEntries [("*", .ofList [.int 20, .int 3])]

/-- A sum of two facts. -/
def grossPrice : Value := .ofEntries [("+", .ofList [.ofEntries [("var", .str "net")],
  .ofEntries [("var", .str "tax.due")]])]

/-- The root is tracked by an expression that reads nothing, and not by one that reads two paths. -/
theorem tracksRoot_of_fixedPrice :
    (∃ e, ofRules fixedPrice .standard = .ok e ∧ e.propagate (.str "") .forward = .ok [] ∧
      e.TracksRoot []) ∧
    ∃ e, ofRules grossPrice .standard = .ok e ∧ e.rulePaths = [""] ∧
      e.graph.edges ["tax", "due"] .backward = .ok [] ∧ ¬ e.TracksRoot ["net", "tax.due"] := by
  constructor
  · obtain ⟨e, he⟩ : ∃ e, ofRules fixedPrice .standard = .ok e := ⟨_, rfl⟩
    obtain ⟨-, -, -, hpropagate, htracks⟩ := tracksRoot_iff rfl he rfl nofun
    exact ⟨e, he, hpropagate, htracks.mpr rfl⟩
  · obtain ⟨e, he⟩ : ∃ e, ofRules grossPrice .standard = .ok e := ⟨_, rfl⟩
    have hpaths : (Expr.ofValue grossPrice).dependencies = .ok ["net", "tax.due"] := rfl
    obtain ⟨hrulePaths, -, hreaders, -, htracks⟩ := tracksRoot_iff rfl he hpaths (by decide)
    exact ⟨e, he, hrulePaths, hreaders "tax.due" (by decide) (by decide),
      fun h => absurd (htracks.mp h) (by decide)⟩

/-- The walk from the only rule is a cycle, and what it reads has no reader. -/
theorem not_tracksRoot_of_grossPrice : grossPrice.isExpression = true ∧
    (Expr.ofValue grossPrice).dependencies = .ok ["net", "tax.due"] ∧
    ∃ e, ofRules grossPrice .standard = .ok e ∧
      edgeSets [] (e.graph.view .forward) = [("", .ofTexts ["", ""])] ∧
      e.graph.edges ["net"] .backward = .ok [] ∧
      e.propagate (.str "") .forward = .error (.propagation (.cycle ["", ""])) ∧
      ¬ e.TracksRoot ["net", "tax.due"] := by
  refine ⟨rfl, rfl, _, rfl, rfl, rfl, rfl, fun htracks => ?_⟩
  exact htracks.acyclic ["", ""] rfl

end Engine

end RuleTree
