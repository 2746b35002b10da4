import RuleTree.Http.Framework
import Mathlib.Data.List.Basic
import Mathlib.Data.String.Basic
/-!
# What the service relies on

The facts about a framework that the service relies on, as the framework documents them
(`Http.Framework.AsDocumented`). A place is found by the decoded path, in which a name has no
slash. An object that gives the fields of a form values of their kinds is accepted as it is. Texts
in lists and maps are written.

No two declared places have a method and a path in common (`Http.Declaration.Fits.eq_of_fits`), so
the order in which they are tried does not matter.
-/

namespace RuleTree

namespace Http

/-! ## Places -/

/-- A path has a form, with a name in it that is not empty and has no slash; a fixed path has the
empty name. -/
inductive Template.Matches : Template → String → String → Prop
  | fixed (path : String) : Matches (.fixed path) path ""
  | named {name : String} (ne_empty : name ≠ "") (no_slash : '/' ∉ name.toList)
    (front back : String) : Matches (.named front back) (front ++ name ++ back) name

/-- A place is declared for a method and a path. -/
structure Declaration.Fits (d : Declaration) (method path name : String) : Prop where
  method : d.method = method
  path : d.template.Matches path name

/-! ## Fields -/

/-- The value of a field is in an object, or the field is missing there and has a standard value. -/
def Field.Gives (f : Field) (entries : List (String × Value)) (v : Value) : Prop :=
  Entries.get? f.name entries = some v ∧ f.has v = true ∨
    Entries.get? f.name entries = none ∧ f.standard = some v

/-- A body is an object that gives fields their values. -/
def Conforms (fields : List Field) (body : Value) (values : List Value) : Prop :=
  ∃ id entries, body = .map id entries ∧ List.Forall₂ (fun f v => f.Gives entries v) fields values

/-- A value is of texts, in lists and maps. -/
inductive OfTexts : Value → Prop
  | text (s : String) : OfTexts (.str s)
  | list {id : Ident} {items : List Value} (of_items : ∀ v ∈ items, OfTexts v) :
    OfTexts (.list id items)
  | map {id : Ident} {entries : List (String × Value)}
    (of_entries : ∀ k v, (k, v) ∈ entries → OfTexts v) : OfTexts (.map id entries)

/-! ## The framework as it is documented -/

/-- What a framework documents about the places of the service, its forms and its bodies. -/
structure Framework.AsDocumented (F : Framework) : Prop where
  /-- A place that is declared for the method and the path of a request is found. -/
  found : ∀ {d : Declaration} {method path name : String}, d ∈ declarations →
    d.Fits method path name → F.dispatch declarations method path = .ok (d.endpoint, name)
  /-- A place that is found is declared for the method, and its name has no slash. -/
  declared : ∀ {method path name : String} {endpoint : Endpoint},
    F.dispatch declarations method path = .ok (endpoint, name) →
      (∃ d ∈ declarations, d.method = method ∧ d.endpoint = endpoint) ∧ '/' ∉ name.toList
  /-- If no place is found, the client is sent on to another path, or told that there is no such
  place, or that it has other methods. -/
  refused : ∀ {method path : String} {response : Response},
    F.dispatch declarations method path = .error response → response.status ∈ [307, 404, 405]
  /-- Values of the right kinds are accepted as they are. -/
  accepts : ∀ {fields : List Field} {body : Value} {values : List Value},
    Conforms fields body values → F.validate fields body = some values
  /-- What is accepted is of the right kind, or the standard value. -/
  typed : ∀ {fields : List Field} {body : Value} {values : List Value},
    F.validate fields body = some values →
      List.Forall₂ (fun f v => f.has v = true ∨ f.standard = some v) fields values
  /-- Texts in lists and maps can be written. -/
  writes : ∀ {v : Value}, OfTexts v → F.encodes v = true

/-! ## Paths that fit -/

/-- What may stand behind a name is empty or starts with a slash, and ends in no newline. -/
theorem parts_spec : ∀ part ∈ parts, (∀ c ∈ part.2.1.toList.head?, c = '/') ∧
    part.2.1.toList.getLast? ≠ some '\n' := by
  have hstart : ∀ part ∈ parts, part.2.1 = "" ∨ part.2.1.toList.head? = some '/' := by decide
  have hend : ∀ part ∈ parts, part.2.1.toList.getLast? ≠ some '\n' := by decide
  refine fun part hpart => ⟨fun c hc => ?_, hend part hpart⟩
  rcases hstart part hpart with h | h
  · rw [h] at hc
    cases hc
  · exact Option.some.inj (hc.symm.trans h)

/-- Behind the front and a name without a slash, the name is what comes before the next slash. -/
theorem takeWhile_name {name back : List Char} (hname : '/' ∉ name)
    (hback : ∀ c ∈ back.head?, c = '/') : (name ++ back).takeWhile (· ≠ '/') = name := by
  induction name with
  | nil =>
    cases back with
    | nil => rfl
    | cons c back => simp [hback c rfl]
  | cons c name ih =>
    obtain ⟨hc, hname⟩ := not_or.mp (List.mem_cons.not.mp hname)
    rw [List.cons_append, List.takeWhile_cons, if_pos (by simpa using Ne.symm hc), ih hname]

/-- A name and what stands behind it are told by their text. -/
theorem eq_of_append_eq {name name' back back' : List Char} (hname : '/' ∉ name)
    (hname' : '/' ∉ name') (hback : ∀ c ∈ back.head?, c = '/')
    (hback' : ∀ c ∈ back'.head?, c = '/') (h : name ++ back = name' ++ back') :
    name = name' ∧ back = back' := by
  have heq : name = name' := by
    rw [← takeWhile_name hname hback, h, takeWhile_name hname' hback']
  subst heq
  exact ⟨rfl, List.append_cancel_left h⟩

/-- The fixed paths of the interface. -/
def fixedPaths : List String := [evaluatePath, dependenciesPath, ruleSetsPath, "/", "/health"]

/-- A declared path is fixed, or it has a name in front of one of the parts. -/
theorem fixed_or_named : ∀ d ∈ declarations, (∃ path ∈ fixedPaths, d.template = .fixed path) ∨
    ∃ part ∈ parts, d.template = .named ruleSetsFront part.2.1 := by
  decide

/-- No fixed path goes on behind the front of the rule sets. -/
theorem fixedPaths_spec : ∀ path ∈ fixedPaths,
    ¬ ruleSetsFront.toList <+: path.toList ∧ path.toList.getLast? ≠ some '\n' := by
  decide

/-- A place is told by its method and the form of its path. -/
theorem eq_of_template_eq : ∀ d ∈ declarations, ∀ d' ∈ declarations, d.method = d'.method →
    d.template = d'.template → d = d' := by
  decide

variable {d d' : Declaration} {method path name name' : String}

/-- A path that a declared place fits is fixed, or a name stands in it. -/
theorem Declaration.Fits.fixed_or_named (hd : d ∈ declarations) (h : d.Fits method path name) :
    (path ∈ fixedPaths ∧ d.template = .fixed path ∧ name = "") ∨
      ∃ part ∈ parts, d.template = .named ruleSetsFront part.2.1 ∧
        path.toList = ruleSetsFront.toList ++ (name.toList ++ part.2.1.toList) ∧
        name ≠ "" ∧ '/' ∉ name.toList := by
  obtain ⟨-, hpath⟩ := h
  rcases Http.fixed_or_named d hd with ⟨fixed, hfixed, ht⟩ | ⟨part, hpart, ht⟩ <;> rw [ht] at hpath
  · cases hpath
    exact Or.inl ⟨hfixed, ht, rfl⟩
  · cases hpath with
    | named ne_empty no_slash =>
      exact Or.inr ⟨part, hpart, ht, by simp, ne_empty, no_slash⟩

/-- No two declared places have a method and a path in common. -/
theorem Declaration.Fits.eq_of_fits (hd : d ∈ declarations) (hd' : d' ∈ declarations)
    (h : d.Fits method path name) (h' : d'.Fits method path name') : d = d' ∧ name = name' := by
  have hmethod : d.method = d'.method := h.method.trans h'.method.symm
  suffices htemplate : d.template = d'.template ∧ name = name' from
    ⟨eq_of_template_eq d hd d' hd' hmethod htemplate.1, htemplate.2⟩
  rcases h.fixed_or_named hd with ⟨hfixed, ht, rfl⟩ | ⟨part, hpart, ht, hpath, -, hslash⟩ <;>
    rcases h'.fixed_or_named hd' with
      ⟨hfixed', ht', rfl⟩ | ⟨part', hpart', ht', hpath', -, hslash'⟩ <;> rw [ht, ht']
  · exact ⟨rfl, rfl⟩
  · exact absurd (hpath' ▸ List.prefix_append _ _) (fixedPaths_spec path hfixed).1
  · exact absurd (hpath ▸ List.prefix_append _ _) (fixedPaths_spec path hfixed').1
  · obtain ⟨hname, hback⟩ := eq_of_append_eq hslash hslash' (parts_spec part hpart).1
      (parts_spec part' hpart').1 (List.append_cancel_left (hpath.symm.trans hpath'))
    rw [String.toList_inj.mp hname, String.toList_inj.mp hback]
    exact ⟨rfl, rfl⟩

end Http

end RuleTree
