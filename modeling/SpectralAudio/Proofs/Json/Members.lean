import SpectralAudio.Proofs.Json.Fields

/-!
This module contains what the fields of a document depend on: not on the order of its members, not
on members with other keys, and not on whether they are given by name or in order.
-/

namespace SpectralAudio.Json

variable {members members' : List (Option String × Json)} {names : List String} {key : String}

section Order

theorem isUnique_eq_of_perm (h : members.Perm members') (key : String) :
    isUnique key members = isUnique key members' := by
  unfold isUnique
  rw [(h.filter _).length_eq]

theorem only?_eq_of_perm (h : members.Perm members') (key : String) :
    only? key members = only? key members' := by
  unfold only?
  have hfound := h.filter (·.1 == some key)
  generalize members.filter (·.1 == some key) = found at hfound ⊢
  generalize members'.filter (·.1 == some key) = found' at hfound ⊢
  match found, found' with
  | [], found' => rw [hfound.nil_eq]
  | [m], found' => rw [List.singleton_perm.mp hfound]
  | _ :: _ :: _, [] => cases hfound.length_eq
  | _ :: _ :: _, [_] => cases hfound.length_eq
  | _ :: _ :: _, _ :: _ :: _ => rfl

theorem fields?_eq_of_perm (h : members.Perm members') (names : List String) :
    (object members).fields? names = (object members').fields? names := by
  have hunique : (isUnique · members) = (isUnique · members') := by
    funext key
    exact isUnique_eq_of_perm h key
  have honly : (only? · members) = (only? · members') := by
    funext key
    exact only?_eq_of_perm h key
  unfold fields?
  dsimp only
  rw [h.all_eq, hunique, honly]

theorem membersAreStorable_eq_all (depth : Nat) (members : List (Option String × Json)) :
    membersAreStorable depth members = members.all fun m => m.1.isSome && m.2.isStorable depth := by
  induction members with
  | nil => rfl
  | cons m ms ih =>
    rw [membersAreStorable, ih]
    rfl

theorem isStorable_eq_of_perm (h : members.Perm members') (depth : Nat) :
    (object members).isStorable depth = (object members').isStorable depth := by
  unfold isStorable
  rw [membersAreStorable_eq_all, membersAreStorable_eq_all, h.all_eq]

end Order

theorem fields?_insert (hkey : key ∉ names) (j : Json) :
    (object (members ++ (some key, j) :: members')).fields? names =
      (object (members ++ members')).fields? names := by
  have hfilter : ∀ name ∈ names,
      ((some key, j) :: (members ++ members')).filter (·.1 == some name) =
        (members ++ members').filter (·.1 == some name) := by
    intro name hname
    rw [List.filter_cons_of_neg]
    intro heq
    have heq : some key = some name := beq_iff_eq.mp heq
    exact hkey (Option.some.inj heq ▸ hname)
  have hunique : names.all (isUnique · ((some key, j) :: (members ++ members'))) =
      names.all (isUnique · (members ++ members')) := by
    rw [Bool.eq_iff_iff, List.all_eq_true, List.all_eq_true]
    apply forall₂_congr
    intro name hname
    unfold isUnique
    rw [hfilter name hname]
  have honly : names.map (only? · ((some key, j) :: (members ++ members'))) =
      names.map (only? · (members ++ members')) := by
    apply List.map_congr_left
    intro name hname
    unfold only?
    rw [hfilter name hname]
  rw [fields?_eq_of_perm List.perm_middle]
  unfold fields?
  dsimp only
  rw [hunique, honly]
  rfl

theorem fields?_array {members : List (String × Json)} {rest : List String}
    (hnodup : (members.map (·.1) ++ rest).Nodup) :
    (array (members.map (·.2))).fields? (members.map (·.1) ++ rest) =
      (ofMembers members).fields? (members.map (·.1) ++ rest) := by
  have hlength : (members.map (·.1) ++ rest).length =
      (members.map (·.2)).length + rest.length := by
    rw [List.length_append, List.length_map, List.length_map]
  rw [fields?_ofMembers_append hnodup]
  unfold fields?
  dsimp only
  rw [hlength, if_pos (Nat.le_add_right _ _), Nat.add_sub_cancel_left, List.map_map]
  rfl

theorem exists_named_of_isPrefix (h : members.map (·.1) <+: names.map some) :
    ∃ (named : List (String × Json)) (rest : List String),
      members = named.map (fun (key, j) => (some key, j)) ∧ names = named.map (·.1) ++ rest := by
  induction members generalizing names with
  | nil => exact ⟨[], names, rfl, rfl⟩
  | cons m ms ih =>
    cases names with
    | nil => cases List.prefix_nil.mp h
    | cons name names =>
      obtain ⟨key, j⟩ := m
      obtain ⟨hkey, hrest⟩ := List.cons_prefix_cons.mp h
      obtain rfl : key = some name := hkey
      obtain ⟨named, rest, rfl, rfl⟩ := ih hrest
      exact ⟨(name, j) :: named, rest, rfl, rfl⟩

end SpectralAudio.Json
