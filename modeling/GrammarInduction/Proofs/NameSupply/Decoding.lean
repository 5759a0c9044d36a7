import Mathlib.Data.List.TakeWhile
import GrammarInduction.NameSupply

/-!
Names of one supply can be told apart. Different numbers give different names, and if the stem
holds a character that is no digit, then also names written one after the other without a gap
can be read back.
-/
namespace GrammarInduction
namespace NameSupply

lemma toDigits_injective {i j : Nat} (h : Nat.toDigits 10 i = Nat.toDigits 10 j) : i = j := by
  rw [← Nat.ofDigitChars_ten_toDigits (n := i), h, Nat.ofDigitChars_ten_toDigits]

lemma toList_nameAt (s : NameSupply) (i : Nat) :
    (s.nameAt i).toList = s.stem.toList ++ Nat.toDigits 10 i := by
  rw [nameAt, Nat.toString_eq_ofList_toDigits, String.toList_append, String.toList_ofList]

lemma nameAt_injective {s : NameSupply} {i j : Nat} (h : s.nameAt i = s.nameAt j) : i = j := by
  have hlist := congrArg String.toList h
  rw [toList_nameAt, toList_nameAt, List.append_cancel_left_eq] at hlist
  exact toDigits_injective hlist

/-- The supply has names that can be told from digits. -/
def Marked (s : NameSupply) : Prop := ∃ c ∈ s.stem.toList, c.isDigit = false

def joined (s : NameSupply) (numbers : List Nat) : List Char :=
  numbers.flatMap fun i => (s.nameAt i).toList

@[simp] lemma joined_nil (s : NameSupply) : s.joined [] = [] := rfl

@[simp] lemma joined_cons (s : NameSupply) (i : Nat) (is : List Nat) :
    s.joined (i :: is) = s.stem.toList ++ (Nat.toDigits 10 i ++ s.joined is) := by
  simp [joined, toList_nameAt]

/-- Behind its digits a name is followed by the leading digits of the stem or by nothing. -/
theorem takeWhile_joined (s : NameSupply) (hs : s.Marked) (is : List Nat) :
    (s.joined is).takeWhile Char.isDigit =
      if is = [] then [] else s.stem.toList.takeWhile Char.isDigit := by
  cases is with
  | nil => rfl
  | cons i is =>
    obtain ⟨c, hc, hd⟩ := hs
    rw [joined_cons, List.takeWhile_append, if_neg, if_neg (List.cons_ne_nil i is)]
    intro hlen
    have hall := (List.takeWhile_prefix (l := s.stem.toList) Char.isDigit).eq_of_length hlen
    have := List.takeWhile_eq_self_iff.mp hall c hc
    simp [hd] at this

lemma joined_cons_ne_nil {s : NameSupply} (hs : s.Marked) (i : Nat) (is : List Nat) :
    s.joined (i :: is) ≠ [] := by
  obtain ⟨c, hc, -⟩ := hs
  intro hnil
  rw [joined_cons, List.append_eq_nil_iff] at hnil
  simp [hnil.1] at hc

/-- Digits alone are never digits and a name. -/
theorem toDigits_ne_append_joined {s : NameSupply} (hs : s.Marked) (i j k : Nat) (ks : List Nat) :
    Nat.toDigits 10 i ≠ Nat.toDigits 10 j ++ s.joined (k :: ks) := by
  obtain ⟨c, hc, hd⟩ := hs
  intro he
  have hmem : c ∈ Nat.toDigits 10 i := by
    rw [he, joined_cons]
    exact List.mem_append_right _ (List.mem_append_left _ hc)
  rw [Nat.isDigit_of_mem_toDigits (by decide) (by decide) hmem] at hd
  exact Bool.noConfusion hd

/-- Digits and what is joined to them can be separated. -/
theorem toDigits_append_joined {s : NameSupply} (hs : s.Marked) {i j : Nat} {is js : List Nat}
    (h : Nat.toDigits 10 i ++ s.joined is = Nat.toDigits 10 j ++ s.joined js) :
    i = j ∧ s.joined is = s.joined js := by
  have htake : ∀ (i : Nat) (is : List Nat),
      (Nat.toDigits 10 i ++ s.joined is).takeWhile Char.isDigit =
        Nat.toDigits 10 i ++ (s.joined is).takeWhile Char.isDigit := fun i is =>
    List.takeWhile_append_of_pos fun c hc =>
      Nat.isDigit_of_mem_toDigits (by decide) (by decide) hc
  cases is with
  | nil =>
    cases js with
    | nil =>
      rw [joined_nil, List.append_nil, List.append_nil] at h
      exact ⟨toDigits_injective h, rfl⟩
    | cons k ks =>
      rw [joined_nil, List.append_nil] at h
      exact absurd h (toDigits_ne_append_joined hs i j k ks)
  | cons k ks =>
    cases js with
    | nil =>
      rw [joined_nil, List.append_nil] at h
      exact absurd h.symm (toDigits_ne_append_joined hs j i k ks)
    | cons l ls =>
      have hdigits := congrArg (List.takeWhile Char.isDigit) h
      rw [htake, htake, takeWhile_joined s hs, takeWhile_joined s hs,
        if_neg (List.cons_ne_nil _ _), if_neg (List.cons_ne_nil _ _),
        List.append_cancel_right_eq] at hdigits
      refine ⟨toDigits_injective hdigits, ?_⟩
      rwa [hdigits, List.append_cancel_left_eq] at h

/-- Joined names can be read back. -/
theorem joined_injective {s : NameSupply} (hs : s.Marked) {is js : List Nat}
    (h : s.joined is = s.joined js) : is = js := by
  induction is generalizing js with
  | nil =>
    cases js with
    | nil => rfl
    | cons j js => exact absurd h.symm (joined_cons_ne_nil hs j js)
  | cons i is ih =>
    cases js with
    | nil => exact absurd h (joined_cons_ne_nil hs i is)
    | cons j js =>
      rw [joined_cons, joined_cons, List.append_cancel_left_eq] at h
      obtain ⟨rfl, hrest⟩ := toDigits_append_joined hs h
      rw [ih hrest]

def IsNames (s : NameSupply) (names : List String) : Prop := ∀ name ∈ names, ∃ i, name = s.nameAt i

lemma IsNames.exists_numbers {s : NameSupply} {names : List String} (h : s.IsNames names) :
    ∃ numbers : List Nat, names = numbers.map s.nameAt := by
  induction names with
  | nil => exact ⟨[], rfl⟩
  | cons name names ih =>
    obtain ⟨i, rfl⟩ := h name (by simp)
    obtain ⟨is, rfl⟩ := ih fun n hn => h n (by simp [hn])
    exact ⟨i :: is, rfl⟩

/-- Two lists of names with the same joined text are equal. -/
theorem eq_of_join_eq {s : NameSupply} (hs : s.Marked) {as bs : List String} (ha : s.IsNames as)
    (hb : s.IsNames bs) (h : String.join as = String.join bs) : as = bs := by
  obtain ⟨is, rfl⟩ := ha.exists_numbers
  obtain ⟨js, rfl⟩ := hb.exists_numbers
  have hlist := congrArg String.toList h
  have hjoin : ∀ is : List Nat, (String.join (is.map s.nameAt)).toList = s.joined is := by
    intro is
    rw [String.toList_join, List.flatMap_map, joined]
  rw [hjoin, hjoin] at hlist
  rw [joined_injective hs hlist]

end NameSupply
end GrammarInduction
