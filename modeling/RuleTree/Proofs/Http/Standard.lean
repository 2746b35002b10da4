import RuleTree.Http.Standard
import RuleTree.Proofs.Http.Documented
import Mathlib.Data.List.Forall2
/-!
# The framework of the program

The framework that the program runs in is as it is documented (`Http.asDocumented_standard`). It
overlooks a newline at the end of a path. That does no harm : only the name of a rule set ends a
declared path in a newline (`Http.Declaration.Fits.of_newline`), and the path with the name is
looked at first.
-/

namespace RuleTree

namespace Http

variable {d d' : Declaration} {method path name : String}

/-! ## Paths that are accepted -/

/-- The name in a path is what stands between the front and the back. -/
theorem take_drop_between (front name back : List Char) :
    ((front ++ name ++ back).drop front.length).take
      ((front ++ name ++ back).length - front.length - back.length) = name := by
  rw [List.append_assoc, List.drop_left]
  have hlength : (front ++ (name ++ back)).length - front.length - back.length = name.length := by
    simp only [List.length_append]
    omega
  rw [hlength, List.take_left]

/-- A fixed path is matched by itself alone. -/
theorem Template.matches_fixed_iff {path' : String} :
    (Template.fixed path').Matches path name ↔ path = path' ∧ name = "" := by
  constructor
  · rintro ⟨⟩
    exact ⟨rfl, rfl⟩
  · rintro ⟨rfl, rfl⟩
    exact .fixed path

/-- A path with a name in it is the name between the front and the back. -/
theorem Template.matches_named_iff {front back : String} :
    (Template.named front back).Matches path name ↔
      path = front ++ name ++ back ∧ name ≠ "" ∧ '/' ∉ name.toList := by
  constructor
  · intro h
    cases h with
    | named ne_empty no_slash => exact ⟨rfl, ne_empty, no_slash⟩
  · rintro ⟨rfl, ne_empty, no_slash⟩
    exact .named ne_empty no_slash front back

/-- The name that is read out of a path is the one in it. -/
theorem Template.match?_eq_some_iff {t : Template} :
    t.match? path.toList = some name.toList ↔ t.Matches path name := by
  cases t with
  | fixed path' =>
    rw [matches_fixed_iff, match?]
    split_ifs with hpath
    · rw [Option.some_inj, eq_comm, String.toList_eq_nil_iff, String.toList_inj.mp hpath,
        and_iff_right rfl]
    · exact iff_of_false nofun fun h => hpath (congrArg String.toList h.1)
  | named front back =>
    rw [matches_named_iff, match?]
    simp only [← String.length_toList]
    constructor
    · intro h
      split_ifs at h with hread
      obtain ⟨hpath, hne, hslash⟩ := hread
      rw [Option.some.inj h] at hpath hne hslash
      refine ⟨String.toList_inj.mp (by simpa using hpath), ?_, hslash⟩
      rintro rfl
      exact hne rfl
    · rintro ⟨rfl, hne, hslash⟩
      have hread := take_drop_between front.toList name.toList back.toList
      simp only [String.toList_append]
      rw [hread, if_pos ⟨rfl, fun h => hne (String.toList_inj.mp h), hslash⟩]

theorem Template.Matches.no_slash {t : Template} (h : t.Matches path name) : '/' ∉ name.toList := by
  cases h with
  | fixed => exact List.not_mem_nil
  | named _ no_slash => exact no_slash

/-- A newline at the end is dropped, and nothing else. -/
theorem dropNewline_eq_or (cs : List Char) :
    dropNewline cs = cs ∨ cs = dropNewline cs ++ ['\n'] := by
  rw [dropNewline]
  split_ifs with hlast
  · exact Or.inr (List.dropLast_append_getLast? _ hlast).symm
  · exact Or.inl rfl

/-- An accepted path has the form, or only what is left of it without a newline at its end has. -/
theorem exists_of_accept? {endpoint : Endpoint}
    (h : d.accept? method path.toList = some (endpoint, name)) : d.endpoint = endpoint ∧
      (d.Fits method path name ∨ (∀ name', ¬ d.Fits method path name') ∧
        ∃ path', path.toList = path'.toList ++ ['\n'] ∧ d.Fits method path' name) := by
  rw [Declaration.accept?] at h
  split_ifs at h with hmethod
  obtain ⟨cs, haccept, hfound⟩ := Option.map_eq_some_iff.mp h
  obtain ⟨rfl, rfl⟩ := Prod.mk.inj hfound
  refine ⟨rfl, ?_⟩
  rw [← String.toList_ofList (l := cs), Template.accept?, Option.or_eq_some_iff] at haccept
  rcases haccept with hexact | ⟨hnone, hdropped⟩
  · exact Or.inl ⟨hmethod, Template.match?_eq_some_iff.mp hexact⟩
  · refine Or.inr ⟨fun name' hfits => ?_, .ofList (dropNewline path.toList), ?_⟩
    · cases hnone.symm.trans (Template.match?_eq_some_iff.mpr hfits.path)
    · rcases dropNewline_eq_or path.toList with heq | heq
      · rw [heq, hnone] at hdropped
        cases hdropped
      · rw [← String.toList_ofList (l := dropNewline path.toList)] at hdropped
        rw [String.toList_ofList]
        exact ⟨heq, hmethod, Template.match?_eq_some_iff.mp hdropped⟩

/-- Only a name ends a declared path in a newline. -/
theorem Declaration.Fits.of_newline (hd : d ∈ declarations) (h : d.Fits method path name)
    {rest : List Char} (hnewline : path.toList = rest ++ ['\n']) :
    d.template = .named ruleSetsFront "" ∧
      ∃ short, rest = ruleSetsFront.toList ++ short ∧ '/' ∉ short := by
  have hlast : path.toList.getLast? = some '\n' := by rw [hnewline, List.getLast?_concat]
  rcases h.fixed_or_named hd with ⟨hfixed, -, -⟩ | ⟨part, hpart, ht, hpath, hne, hslash⟩
  · exact absurd hlast (fixedPaths_spec path hfixed).2
  have hback : part.2.1 = "" := by
    by_contra hback
    have hne : part.2.1.toList ≠ [] := fun h => hback (String.toList_inj.mp h)
    rw [hpath, ← List.append_assoc, List.getLast?_append_of_ne_nil _ hne] at hlast
    exact (parts_spec part hpart).2 hlast
  obtain ⟨short, c, hshort⟩ := (List.eq_nil_or_concat' name.toList).resolve_left
    fun h => hne (String.toList_inj.mp h)
  refine ⟨hback ▸ ht, short, ?_, fun hmem => hslash (hshort ▸ List.mem_append_left _ hmem)⟩
  rw [hnewline, hback, hshort, String.toList_empty, List.append_nil, ← List.append_assoc] at hpath
  simpa using congrArg List.dropLast hpath

/-- A declared path with nothing but a name behind the front is the one of a rule set. -/
theorem Declaration.Fits.of_no_slash (hd : d ∈ declarations) (h : d.Fits method path name)
    {short : List Char} (hfront : path.toList = ruleSetsFront.toList ++ short)
    (hshort : '/' ∉ short) : d.template = .named ruleSetsFront "" := by
  rcases h.fixed_or_named hd with ⟨hfixed, -, -⟩ | ⟨part, hpart, ht, hpath, -, -⟩
  · exact absurd (hfront ▸ List.prefix_append _ _) (fixedPaths_spec path hfixed).1
  have heq := List.append_cancel_left (hfront.symm.trans hpath)
  cases hback : part.2.1.toList with
  | nil => rw [ht, String.toList_eq_nil_iff.mp hback]
  | cons c rest =>
    obtain rfl := (parts_spec part hpart).1 c (by simp [hback])
    exact absurd (heq ▸ by simp [hback]) hshort

/-- A place that accepts a path for which another one is declared is that place. -/
theorem eq_of_accept? (hd : d ∈ declarations) (h : d.Fits method path name)
    (hd' : d' ∈ declarations) {found : Endpoint × String}
    (hfound : d'.accept? method path.toList = some found) : found = (d.endpoint, name) := by
  obtain ⟨endpoint, name'⟩ := found
  obtain ⟨rfl, hfits | ⟨hnot, path', hpath', hfits⟩⟩ := exists_of_accept? hfound
  · obtain ⟨rfl, rfl⟩ := h.eq_of_fits hd hd' hfits
    rfl
  -- the newline belongs to the name, so what is left has the form of the same place
  · obtain ⟨ht, short, hfront, hshort⟩ := h.of_newline hd hpath'
    have ht' := hfits.of_no_slash hd' hfront hshort
    have hmethod : d'.method = d.method := hfits.method.trans h.method.symm
    obtain rfl := eq_of_template_eq d' hd' d hd hmethod (ht'.trans ht.symm)
    exact absurd h (hnot name)

/-- A place that is declared for a method and a path is found. -/
theorem dispatch_of_fits (hd : d ∈ declarations) (h : d.Fits method path name) :
    dispatch declarations method path = .ok (d.endpoint, name) := by
  have haccept : d.accept? method path.toList = some (d.endpoint, name) := by
    rw [Declaration.accept?, if_pos h.method, Template.accept?,
      Template.match?_eq_some_iff.mpr h.path, Option.some_or, Option.map_some,
      String.ofList_toList]
  have hfound : (declarations.findSome? fun d => d.accept? method path.toList) =
      some (d.endpoint, name) := by
    cases hfound : declarations.findSome? fun d => d.accept? method path.toList with
    | none => cases (List.findSome?_eq_none_iff.mp hfound d hd).symm.trans haccept
    | some found =>
      obtain ⟨d', hd', hd'found⟩ := List.exists_of_findSome?_eq_some hfound
      rw [eq_of_accept? hd h hd' hd'found]
  rw [dispatch, hfound]

/-! ## Fields that are read -/

/-- A pipeline that gives something gives something for each item. -/
theorem forall₂_of_mapM_eq_some {α β : Type} {f : α → Option β} : ∀ {items : List α}
    {found : List β}, items.mapM f = some found → List.Forall₂ (fun a b => f a = some b) items found
  | [], found, h => by
    obtain rfl := Option.some.inj h
    exact .nil
  | a :: items, found, h => by
    rw [List.mapM_cons] at h
    obtain ⟨b, hb, h⟩ := Option.bind_eq_some_iff.mp h
    obtain ⟨rest, hrest, h⟩ := Option.bind_eq_some_iff.mp h
    obtain rfl := Option.some.inj h
    exact .cons hb (forall₂_of_mapM_eq_some hrest)

theorem find?_eq_some {f : Field} {entries : List (String × Value)} {v : Value}
    (h : f.Gives entries v) : f.find? entries = some v := by
  rcases h with ⟨hget, hhas⟩ | ⟨hget, hstandard⟩ <;> rw [Field.find?, hget]
  · exact if_pos hhas
  · exact hstandard

/-- What is read for a field is of its kind. -/
theorem has_of_read? {f : Field} {v w : Value} (h : f.read? w = some v) : f.has v = true := by
  rw [Field.read?] at h
  split_ifs at h with hhas
  · exact Option.some.inj h ▸ hhas
  split at h
  · next hkind =>
    obtain ⟨b, -, rfl⟩ := Option.map_eq_some_iff.mp h
    rw [Field.has, hkind]
    rfl
  · cases h

/-- The value of a field is of its kind, or the standard value. -/
theorem typed_of_find? {f : Field} {entries : List (String × Value)} {v : Value}
    (h : f.find? entries = some v) : f.has v = true ∨ f.standard = some v := by
  rw [Field.find?] at h
  split at h
  · exact Or.inl (has_of_read? h)
  · exact Or.inr h

/-- The framework of the program is as it is documented, if it writes texts in lists and maps. -/
theorem asDocumented_standard {encodes : Value → Bool}
    (hwrites : ∀ v, OfTexts v → encodes v = true) : (Framework.standard encodes).AsDocumented where
  found := dispatch_of_fits
  declared {method path name endpoint} h := by
    change Http.dispatch declarations method path = _ at h
    rw [Http.dispatch] at h
    split at h
    · next found hfound =>
      obtain rfl := Except.ok.inj h
      obtain ⟨d, hd, haccept⟩ := List.exists_of_findSome?_eq_some hfound
      obtain ⟨hendpoint, hfits | ⟨-, path', -, hfits⟩⟩ := exists_of_accept? haccept <;>
        exact ⟨⟨d, hd, hfits.method, hendpoint⟩, hfits.path.no_slash⟩
    · split_ifs at h
  refused {method path response} h := by
    change Http.dispatch declarations method path = _ at h
    rw [Http.dispatch] at h
    split at h
    · cases h
    · split_ifs at h <;> obtain rfl := Except.error.inj h <;> decide
  accepts {fields body values} h := by
    obtain ⟨id, entries, rfl, hvalues⟩ := h
    show fields.mapM (fun f => f.find? entries) = some values
    induction hvalues with
    | nil => rfl
    | cons hgives _ ih =>
      rw [List.mapM_cons, find?_eq_some hgives, ih]
      rfl
  typed {fields body values} h := by
    cases body with
    | map id entries =>
      change fields.mapM (fun f => f.find? entries) = some values at h
      exact (forall₂_of_mapM_eq_some h).imp fun _ _ => typed_of_find?
    | _ => cases h
  writes {v} hv := hwrites v hv

end Http

end RuleTree
