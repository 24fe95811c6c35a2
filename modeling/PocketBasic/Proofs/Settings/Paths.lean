import Mathlib.Data.List.Permutation
import PocketBasic.Json.Print
import PocketBasic.Settings

/-! What counts of a settings text. Reading takes over what the members of the root say, one after
the other. Each key is there once, and no two keys say something about the same setting, so the
order of the members does not matter (`update_comm`) and what is read is what stands at the end of
three paths (`foldl_update`). Texts that agree there give the same settings (`parse_congr`). -/

namespace PocketBasic

namespace Json

/-- The value at the end of a path of keys. -/
def at? (path : List (List Char)) (value : Json) : Option Json :=
  path.foldlM (fun value key => value.get? key) value

/-- The truth value at the end of a path. A value of another type is as good as none. -/
def boolAt? (path : List (List Char)) (root : Json) : Option Bool :=
  (root.at? path).bind bool?

/-- The string at the end of a path. -/
def stringAt? (path : List (List Char)) (root : Json) : Option (List Char) :=
  (root.at? path).bind string?

variable {members : List (List Char × Json)} {key : List Char}

theorem at?_cons (root : Json) (key : List Char) (path : List (List Char)) :
    root.at? (key :: path) = (root.get? key).bind (·.at? path) := rfl

theorem at?_singleton (root : Json) (key : List Char) : root.at? [key] = root.get? key := by
  rw [at?_cons]
  exact Option.bind_fun_some _

theorem mem_lastMembers {member : List Char × Json} (h : member ∈ lastMembers members) :
    member ∈ members := by
  induction members with
  | nil => exact absurd h List.not_mem_nil
  | cons first members ih =>
    rw [lastMembers] at h
    split at h
    next => exact List.mem_cons_of_mem _ (ih h)
    next =>
      rcases List.mem_cons.mp h with rfl | h
      · exact List.mem_cons_self
      · exact List.mem_cons_of_mem _ (ih h)

theorem nodup_lastMembers (members : List (List Char × Json)) :
    ((lastMembers members).map Prod.fst).Nodup := by
  induction members with
  | nil => exact .nil
  | cons first members ih =>
    rw [lastMembers]
    split
    next => exact ih
    next hnew =>
      refine List.nodup_cons.mpr ⟨fun hmem => hnew ?_, ih⟩
      obtain ⟨member, hmember, heq⟩ := List.mem_map.mp hmem
      exact List.any_eq_true.mpr ⟨member, mem_lastMembers hmember, beq_iff_eq.mpr heq⟩

/-- The last member with a key is the one that is found under it. -/
theorem lookup_lastMembers (members : List (List Char × Json)) (key : List Char) :
    (lastMembers members).lookup key = (members.reverse.find? (·.1 == key)).map (·.2) := by
  induction members with
  | nil => rfl
  | cons first members ih =>
    obtain ⟨name, value⟩ := first
    rw [lastMembers, List.reverse_cons, List.find?_append, Option.map_or, ← ih]
    split
    next hagain =>
      -- a later member has the same key, so this one is found under none
      by_cases hkey : name = key
      · obtain ⟨later, hmem, hlater⟩ := List.any_eq_true.mp hagain
        have hsome : (members.reverse.find? (·.1 == key)).isSome = true :=
          List.find?_isSome.mpr ⟨later, List.mem_reverse.mpr hmem, hkey ▸ hlater⟩
        obtain ⟨found, hfound⟩ := Option.isSome_iff_exists.mp hsome
        rw [ih, hfound]
        rfl
      · simp [hkey]
    next hnew =>
      by_cases hkey : name = key
      · subst hkey
        have hnone : members.reverse.find? (·.1 == name) = none := by
          refine List.find?_eq_none.mpr fun later hmem hlater => hnew ?_
          exact List.any_eq_true.mpr ⟨later, List.mem_reverse.mp hmem, hlater⟩
        simp [ih, hnone]
      · have hne : (key == name) = false := by simpa using Ne.symm hkey
        simp [List.lookup_cons, hkey, hne]

theorem lookup_entries (root : Json) (key : List Char) : root.entries.lookup key = root.get? key := by
  cases root with
  | object members => exact lookup_lastMembers members key
  | null | bool | number | string | array => rfl

theorem nodup_entries (root : Json) : (root.entries.map Prod.fst).Nodup := by
  cases root with
  | object members => exact nodup_lastMembers members
  | null | bool | number | string | array => exact .nil

end Json

namespace Settings

/-- The path of the switch for the CE-150. -/
def ce150Path : List (List Char) :=
  ["keywords".toList, "ce150".toList]

/-- The path of the switch for the CE-158. -/
def ce158Path : List (List Char) :=
  ["keywords".toList, "ce158".toList]

/-- The path of the name of the line ending. -/
def endingPath : List (List Char) :=
  ["reformat".toList, "defaultLineEnding".toList]

variable {entries : List (List Char × Json)} {read : Json.Reader} {text text' : List Char}
  {root root' : Json}

section
variable (windows : Bool)

theorem update_keywords (settings : Settings) (warnings : List Warning) (value : Json) :
    update windows (settings, warnings) ("keywords".toList, value) =
      ({ settings with
          ce150 := (value.boolAt? ["ce150".toList]).getD settings.ce150
          ce158 := (value.boolAt? ["ce158".toList]).getD settings.ce158 }, warnings) := by
  rw [update, if_pos rfl, Json.boolAt?, Json.boolAt?, Json.at?_singleton, Json.at?_singleton]
  rfl

theorem update_reformat (settings : Settings) (warnings : List Warning) (value : Json) :
    update windows (settings, warnings) ("reformat".toList, value) =
      let name := (value.stringAt? ["defaultLineEnding".toList]).getD []
      let chosen := chooseEnding windows settings.ending name
      ({ settings with ending := chosen.1 }, warnings ++ chosen.2) := by
  rw [update, if_neg (by decide), if_pos rfl, Json.stringAt?, Json.at?_singleton]
  rfl

theorem update_of_ne {key : List Char} (hkeywords : key ≠ "keywords".toList)
    (hreformat : key ≠ "reformat".toList) (given : Settings × List Warning) (value : Json) :
    update windows given (key, value) = given := by
  obtain ⟨settings, warnings⟩ := given
  rw [update, if_neg hkeywords, if_neg hreformat]

/-- Members with different keys are taken over in any order. -/
theorem update_comm {a b : List Char × Json} (h : a.1 ≠ b.1) (given : Settings × List Warning) :
    update windows (update windows given a) b = update windows (update windows given b) a := by
  obtain ⟨settings, warnings⟩ := given
  obtain ⟨key, value⟩ := a
  obtain ⟨key', value'⟩ := b
  have apart (value value' : Json) :
      update windows (update windows (settings, warnings) ("keywords".toList, value))
          ("reformat".toList, value') =
        update windows (update windows (settings, warnings) ("reformat".toList, value'))
          ("keywords".toList, value) := by
    rw [update_keywords, update_reformat, update_reformat, update_keywords]
  by_cases hkey : key ≠ "keywords".toList ∧ key ≠ "reformat".toList
  · rw [update_of_ne windows hkey.1 hkey.2, update_of_ne windows hkey.1 hkey.2]
  by_cases hkey' : key' ≠ "keywords".toList ∧ key' ≠ "reformat".toList
  · rw [update_of_ne windows hkey'.1 hkey'.2, update_of_ne windows hkey'.1 hkey'.2]
  rw [not_and_or, not_not, not_not] at hkey hkey'
  rcases hkey with rfl | rfl <;> rcases hkey' with rfl | rfl
  · exact absurd rfl h
  · exact apart value value'
  · exact (apart value' value).symm
  · exact absurd rfl h

/-- What all the members say, if no key is there twice. -/
theorem foldl_update (h : (entries.map Prod.fst).Nodup) (settings : Settings)
    (warnings : List Warning) :
    entries.foldl (update windows) (settings, warnings) =
      let keywords := entries.lookup "keywords".toList
      let name := (entries.lookup "reformat".toList).bind
        (·.stringAt? ["defaultLineEnding".toList])
      let chosen := chooseEnding windows settings.ending (name.getD [])
      ({ ce150 := (keywords.bind (·.boolAt? ["ce150".toList])).getD settings.ce150
         ce158 := (keywords.bind (·.boolAt? ["ce158".toList])).getD settings.ce158
         ending := chosen.1 }, warnings ++ chosen.2) := by
  induction entries generalizing settings warnings with
  | nil => simp [chooseEnding]
  | cons first entries ih =>
    obtain ⟨key, value⟩ := first
    obtain ⟨hnew, hothers⟩ := List.nodup_cons.mp h
    have habsent : entries.lookup key = none := by
      refine List.lookup_eq_none_iff.mpr fun member hmem => bne_iff_ne.mpr fun heq => hnew ?_
      exact List.mem_map.mpr ⟨member, hmem, heq.symm⟩
    rw [List.foldl_cons]
    by_cases hkeywords : key = "keywords".toList
    · subst hkeywords
      have hne : ("reformat".toList == "keywords".toList) = false := by decide
      rw [update_keywords, ih hothers, habsent, List.lookup_cons_self, List.lookup_cons, hne]
      rfl
    by_cases hreformat : key = "reformat".toList
    · subst hreformat
      have hne : ("keywords".toList == "reformat".toList) = false := by decide
      rw [update_reformat, ih hothers, habsent, List.lookup_cons_self, List.lookup_cons, hne]
      exact Prod.ext rfl (List.append_nil _)
    · have hk : ("keywords".toList == key) = false := by simpa using Ne.symm hkeywords
      have hr : ("reformat".toList == key) = false := by simpa using Ne.symm hreformat
      rw [update_of_ne windows hkeywords hreformat, ih hothers, List.lookup_cons, hk, List.lookup_cons, hr]

/-- The members of the root may be gone through in any order. -/
theorem foldl_update_of_perm (h : entries.Perm root.entries) (given : Settings × List Warning) :
    entries.foldl (update windows) given = root.entries.foldl (update windows) given := by
  refine h.foldl_eq' (fun a ha b hb given => ?_) given
  by_cases hab : a = b
  · rw [hab]
  · refine update_comm windows (fun hkey => hab ?_) given
    have hnodup := (h.map Prod.fst).nodup_iff.mpr root.nodup_entries
    exact List.inj_on_of_nodup_map hnodup ha hb hkey

/-- The settings are what stands at the end of the three paths. -/
theorem ofJson_eq (root : Json) :
    ofJson windows root =
      let name := (root.stringAt? endingPath).getD []
      let chosen := chooseEnding windows (.platform windows) name
      ({ ce150 := (root.boolAt? ce150Path).getD true
         ce158 := (root.boolAt? ce158Path).getD true
         ending := chosen.1 }, chosen.2) := by
  have get? (key name : List Char) :
      root.at? [key, name] = (root.entries.lookup key).bind (·.at? [name]) := by
    rw [Json.lookup_entries, Json.at?_cons]
  rw [ofJson, foldl_update windows root.nodup_entries]
  simp only [Json.boolAt?, Json.stringAt?, ce150Path, ce158Path, endingPath, get?, Option.bind_assoc,
    List.nil_append]
  rfl

end

/-- Settings texts that agree at three paths are read alike, whatever else they hold. Neither is
refused; a setting whose path holds nothing of the right type stays at its default, and so does the
line ending if its name is empty or not known. The members may be gone through in any order. -/
theorem parse_congr (windows : Bool) (h : read text = .ok root) (h' : read text' = .ok root')
    (hce150 : root.boolAt? ce150Path = root'.boolAt? ce150Path)
    (hce158 : root.boolAt? ce158Path = root'.boolAt? ce158Path)
    (hending : root.stringAt? endingPath = root'.stringAt? endingPath) :
    ∃ settings warnings, parseWith windows read text = .ok (settings, warnings) ∧
      parseWith windows read text' = .ok (settings, warnings) ∧
      (∀ entries : List (List Char × Json), entries.Perm root.entries →
        entries.foldl (update windows) (defaults windows, []) = (settings, warnings)) ∧
      settings.ce150 = (root.boolAt? ce150Path).getD (defaults windows).ce150 ∧
      settings.ce158 = (root.boolAt? ce158Path).getD (defaults windows).ce158 ∧
      (settings.ending, warnings) =
        match root.stringAt? endingPath with
        | none | some [] => ((defaults windows).ending, [])
        | some name =>
          match LineEnding.ofName windows (String.ofList name) with
          | .ok ending => (ending, [])
          | .error _ =>
            ((defaults windows).ending, [.ignoredLineEnding (String.ofList name)]) := by
  have hroot : parseWith windows read text = .ok (ofJson windows root) := by
    rw [parseWith, h]
  have hroot' : parseWith windows read text' = .ok (ofJson windows root) := by
    rw [parseWith, h', ofJson_eq windows root, hce150, hce158, hending, ← ofJson_eq windows root']
  refine ⟨(ofJson windows root).1, (ofJson windows root).2, hroot, hroot',
    fun entries hperm => foldl_update_of_perm windows hperm _, ?_⟩
  rw [ofJson_eq]
  refine ⟨rfl, rfl, ?_⟩
  cases root.stringAt? endingPath with
  | none => rfl
  | some name =>
    cases name with
    | nil => rfl
    | cons c name =>
      have hchoose : chooseEnding windows (.platform windows) (c :: name) =
          match LineEnding.ofName windows (String.ofList (c :: name)) with
          | .ok ending => (ending, [])
          | .error _ => (.platform windows, [.ignoredLineEnding (String.ofList (c :: name))]) :=
        if_neg (List.cons_ne_nil c name)
      exact hchoose

/-- Keys come in another order and twice, one has a value of the wrong type, and others mean
nothing. -/
theorem parse_congr_reordered :
    let root : Json := .object [
      ("keywords".toList, .object [
        ("ce158".toList, .bool false), ("ce150".toList, .string "off".toList)]),
      ("reformat".toList, .object [("defaultLineEnding".toList, .string "vms".toList)])]
    let root' : Json := .object [
      ("reformat".toList, .object [
        ("defaultLineEnding".toList, .string "vms".toList), ("width".toList, .null)]),
      ("more".toList, .array [.bool true]),
      ("keywords".toList, .object [
        ("ce158".toList, .bool true), ("ce158".toList, .bool false)])]
    let text := root.render .compact
    let text' := root'.render (.indented 2)
    Json.read text = .ok root ∧ Json.read text' = .ok root' ∧
      ∃ settings warnings, parse text = .ok (settings, warnings) ∧
        parse text' = .ok (settings, warnings) ∧ settings.ce150 = true ∧ settings.ce158 = false ∧
        (settings.ending, warnings) = (.lf, [.ignoredLineEnding "vms"]) := by
  intro root root' text text'
  have h : Json.read text = .ok root := by cbv
  have h' : Json.read text' = .ok root' := by cbv
  obtain ⟨settings, warnings, hread, hread', -, hce150, hce158, hending⟩ :=
    parse_congr false h h' (by cbv) (by cbv) (by cbv)
  exact ⟨h, h', settings, warnings, hread, hread', hce150.trans (by cbv), hce158.trans (by cbv),
    hending.trans (by cbv)⟩

end Settings

end PocketBasic
