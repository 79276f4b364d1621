import SpectralAudio.Preset.Codec
import SpectralAudio.Proofs.Json.Text

/-!
This module contains the fields of stored settings. A number is stored with its shortest digits, and
these are read through binary64 as the same number; what is not a number has no text and is not
read. Members with different keys are found again.
-/

namespace SpectralAudio.Json

section Values

theorem exists_ofFloat32 {x : Float32} (hx : x.isFinite) :
    ∃ n, ofFloat32 x = number n ∧ n.IsWritten ∧ n.isInteger = false ∧
      ∃ y, n.toFloat? = some y ∧ Binary32.narrow y = x := by
  obtain ⟨n, hsome, hn⟩ := Numeral.exists_ofFloat32? hx
  refine ⟨n, ?_, hn⟩
  unfold ofFloat32
  rw [hsome]

theorem ofFloat32_eq_null {x : Float32} (hx : x.isFinite = false) : ofFloat32 x = null := by
  unfold ofFloat32
  rw [Numeral.ofFloat32?_eq_none hx]

theorem isWritten_ofFloat32 (x : Float32) : (ofFloat32 x).IsWritten := by
  cases hx : x.isFinite with
  | true =>
    obtain ⟨n, hn, hwritten, -⟩ := exists_ofFloat32 hx
    rw [hn]
    exact hwritten
  | false =>
    rw [ofFloat32_eq_null hx]
    trivial

theorem isStorable_ofFloat32 (depth : Nat) (x : Float32) : (ofFloat32 x).isStorable depth := by
  cases hx : x.isFinite with
  | true =>
    obtain ⟨n, hn, -, -, y, hy, -⟩ := exists_ofFloat32 hx
    rw [hn]
    unfold isStorable
    rw [hy]
    rfl
  | false =>
    rw [ofFloat32_eq_null hx]
    rfl

theorem toFloat32?_ofFloat32 {x : Float32} (hx : x.isFinite) :
    (ofFloat32 x).toFloat32? = some x := by
  obtain ⟨n, hn, -, hinteger, y, hy, hnarrow⟩ := exists_ofFloat32 hx
  rw [hn]
  show n.toFloat32? = some x
  rw [Numeral.toFloat32?_eq_narrow hinteger, hy, ← hnarrow]
  rfl

theorem toFloat32?_ofFloat32_eq_none {x : Float32} (hx : x.isFinite = false) :
    (ofFloat32 x).toFloat32? = none := by
  rw [ofFloat32_eq_null hx]
  rfl

theorem mapM_toFloat32? {xs : List Float32} (h : ∀ x ∈ xs, x.isFinite) :
    (xs.map ofFloat32).mapM toFloat32? = some xs := by
  induction xs with
  | nil => rfl
  | cons x xs ih =>
    rw [List.map_cons, List.mapM_cons, toFloat32?_ofFloat32 (h x List.mem_cons_self),
      ih fun x hx => h x (List.mem_cons_of_mem _ hx)]
    rfl

theorem mapM_toFloat32?_eq_none {xs : List Float32} {x : Float32} (hx : x ∈ xs)
    (hinfinite : x.isFinite = false) : (xs.map ofFloat32).mapM toFloat32? = none := by
  induction xs with
  | nil => cases hx
  | cons first xs ih =>
    rw [List.map_cons, List.mapM_cons]
    rcases List.mem_cons.mp hx with rfl | hx
    . rw [toFloat32?_ofFloat32_eq_none hinfinite]
      rfl
    . rw [ih hx]
      cases (ofFloat32 first).toFloat32? <;> rfl

theorem isWritten_ofNat? (n : Option Nat) : (ofNat? n).IsWritten := by
  cases n with
  | none => trivial
  | some n => exact Numeral.isWritten_ofNat n

theorem natField_ofNat? {bound : Nat} {n : Option Nat} (h : ∀ m ∈ n, m < bound) :
    natField bound (some (ofNat? n)) = some n := by
  cases n with
  | none => rfl
  | some n =>
    have hvalue : (Numeral.ofNat n).toNat? = some n := by
      unfold Numeral.toNat? Numeral.coefficient Numeral.ofNat
      dsimp only
      rw [List.append_nil, Numeral.digitsValue_toDigits]
      rfl
    show ((Numeral.ofNat n).toNat?.filter (· < bound)).map some = some (some n)
    rw [hvalue, Option.filter_some, if_pos (decide_eq_true (h n rfl))]
    rfl

end Values

section Members

theorem isWritten_ofMembers {members : List (String × Json)}
    (h : ∀ m ∈ members, m.2.IsWritten) :
    (ofMembers members).IsWritten := by
  show MembersAreWritten (members.map _)
  induction members with
  | nil => trivial
  | cons m ms ih =>
    exact ⟨h m List.mem_cons_self, ih fun m hm => h m (List.mem_cons_of_mem _ hm)⟩

theorem isStorable_ofMembers {members : List (String × Json)} {depth : Nat}
    (h : ∀ m ∈ members, m.2.isStorable depth) : (ofMembers members).isStorable (depth + 1) := by
  have hmembers (named : String × Json → Option String × Json)
      (hnamed : ∀ m, named m = (some m.1, m.2)) : membersAreStorable depth (members.map named) := by
    induction members with
    | nil => rfl
    | cons m ms ih =>
      rw [List.map_cons, hnamed, membersAreStorable, h m List.mem_cons_self,
        ih fun m hm => h m (List.mem_cons_of_mem _ hm)]
      rfl
  unfold ofMembers isStorable
  rw [Nat.add_sub_cancel, hmembers _ fun _ => rfl, decide_eq_true (Nat.succ_pos depth)]
  rfl

theorem filter_key_eq_nil {members : List (String × Json)} {key : String}
    (h : key ∉ members.map (·.1)) :
    (members.map fun (key, j) => (some key, j)).filter (·.1 == some key) = [] := by
  rw [List.filter_eq_nil_iff]
  intro m hm hkey
  obtain ⟨member, hmember, rfl⟩ := List.mem_map.mp hm
  have hkey : some member.1 = some key := beq_iff_eq.mp hkey
  apply h
  rw [← Option.some.inj hkey]
  exact List.mem_map_of_mem hmember

theorem filter_key {members : List (String × Json)} (hnodup : (members.map (·.1)).Nodup)
    {key : String} {j : Json} (hm : (key, j) ∈ members) :
    (members.map fun (key, j) => (some key, j)).filter (·.1 == some key) = [(some key, j)] := by
  induction members with
  | nil => cases hm
  | cons m ms ih =>
    obtain ⟨first, k⟩ := m
    obtain ⟨hfirst, hrest⟩ := List.nodup_cons.mp hnodup
    rw [List.map_cons]
    rcases List.mem_cons.mp hm with heq | hm
    . obtain ⟨rfl, rfl⟩ := Prod.mk.inj heq
      rw [List.filter_cons_of_pos (by exact beq_self_eq_true (some key)), filter_key_eq_nil hfirst]
    . rw [List.filter_cons_of_neg, ih hrest hm]
      intro hkey
      have hkey : some first = some key := beq_iff_eq.mp hkey
      apply hfirst
      show first ∈ ms.map (·.1)
      rw [Option.some.inj hkey]
      exact List.mem_map_of_mem (f := (·.1)) hm

theorem only?_of_mem {members : List (String × Json)} (hnodup : (members.map (·.1)).Nodup)
    {key : String} {j : Json} (hm : (key, j) ∈ members) :
    only? key (members.map fun (key, j) => (some key, j)) = some j := by
  unfold only?
  rw [filter_key hnodup hm]

theorem fields?_ofMembers_append {members : List (String × Json)} {rest : List String}
    (hnodup : (members.map (·.1) ++ rest).Nodup) :
    (ofMembers members).fields? (members.map (·.1) ++ rest) =
      some ((members.map fun m => some m.2) ++ List.replicate rest.length none) := by
  have hmembers := hnodup.of_append_left
  have hother : ∀ name ∈ rest, name ∉ members.map (·.1) := by
    intro name hname hmem
    exact List.disjoint_of_nodup_append hnodup hmem hname
  have hkeys : (members.map fun (key, j) => (some key, j)).all (·.1.isSome) := by
    rw [List.all_map]
    exact List.all_eq_true.mpr fun m _ => rfl
  -- no name comes twice, so that none is refused
  have hunique : (members.map (·.1) ++ rest).all
      (isUnique · (members.map fun (key, j) => (some key, j))) := by
    rw [List.all_eq_true]
    intro name hname
    unfold isUnique
    rcases List.mem_append.mp hname with hname | hname
    . obtain ⟨m, hm, rfl⟩ := List.mem_map.mp hname
      rw [filter_key hmembers hm]
      rfl
    . rw [filter_key_eq_nil (hother name hname)]
      rfl
  -- each name of a member finds its value, and the others find nothing
  have hfound : (members.map (·.1)).map
      (only? · (members.map fun (key, j) => (some key, j))) = members.map fun m => some m.2 := by
    rw [List.map_map]
    apply List.map_congr_left
    intro m hm
    exact only?_of_mem hmembers hm
  have hmissing : rest.map (only? · (members.map fun (key, j) => (some key, j))) =
      List.replicate rest.length none := by
    rw [List.eq_replicate_iff, List.length_map]
    refine ⟨rfl, ?_⟩
    intro value hvalue
    obtain ⟨name, hname, rfl⟩ := List.mem_map.mp hvalue
    unfold only?
    rw [filter_key_eq_nil (hother name hname)]
  unfold ofMembers fields?
  dsimp only
  rw [hkeys, hunique, List.map_append, hfound, hmissing]
  rfl

theorem fields?_ofMembers (members : List (String × Json)) (hnodup : (members.map (·.1)).Nodup) :
    (ofMembers members).fields? (members.map (·.1)) = some (members.map fun m => some m.2) := by
  have hall := @fields?_ofMembers_append members [] (by rwa [List.append_nil])
  rw [List.append_nil] at hall
  rw [hall]
  exact congrArg some (List.append_nil _)

theorem mapM_only? {members fields : List (String × Json)} (hnodup : (members.map (·.1)).Nodup)
    (hfields : fields ⊆ members) :
    (fields.map (·.1)).mapM (only? · (members.map fun (key, j) => (some key, j))) =
      some (fields.map (·.2)) := by
  induction fields with
  | nil => rfl
  | cons m ms ih =>
    have hm := only?_of_mem hnodup (hfields List.mem_cons_self)
    rw [List.map_cons, List.mapM_cons, hm, ih fun m hm => hfields (List.mem_cons_of_mem _ hm)]
    rfl

end Members

end SpectralAudio.Json
