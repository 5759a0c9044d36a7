/-!
Catalogues: values under distinct keys, in the order in which the keys first appeared. Each
operation is described through `get?`; the keys never repeat.
-/
namespace GrammarInduction

/-- Values under distinct keys, in order of first appearance. -/
structure Catalogue (κ : Type _) (ν : Type _) where
  entries : List (κ × ν)
  nodup : (entries.map Prod.fst).Nodup := by simp

namespace Catalogue

variable {κ : Type _} {ν : Type _}

def empty : Catalogue κ ν := ⟨[], by simp⟩

instance : Inhabited (Catalogue κ ν) := ⟨empty⟩

/-- The keys, oldest first. -/
def keys (c : Catalogue κ ν) : List κ := c.entries.map Prod.fst

def values (c : Catalogue κ ν) : List ν := c.entries.map Prod.snd

def size (c : Catalogue κ ν) : Nat := c.entries.length

def isEmpty (c : Catalogue κ ν) : Bool := c.entries.isEmpty

theorem nodup_filter (p : κ × ν → Bool) (es : List (κ × ν)) (h : (es.map Prod.fst).Nodup) :
    ((es.filter p).map Prod.fst).Nodup :=
  h.sublist (List.filter_sublist.map _)

def filter (c : Catalogue κ ν) (p : κ → ν → Bool) : Catalogue κ ν :=
  ⟨c.entries.filter fun e => p e.1 e.2, nodup_filter _ _ c.nodup⟩

variable [DecidableEq κ]

/-- The value under a key in a list of entries. -/
def find? (k : κ) : List (κ × ν) → Option ν
  | [] => none
  | e :: es => if e.1 = k then some e.2 else find? k es

def get? (c : Catalogue κ ν) (k : κ) : Option ν := find? k c.entries

def contains (c : Catalogue κ ν) (k : κ) : Bool := (c.get? k).isSome

/-- Replaces the value under `k` by `f` of it; an absent key is added at the end. -/
def alter (k : κ) (f : Option ν → ν) : List (κ × ν) → List (κ × ν)
  | [] => [(k, f none)]
  | e :: es => if e.1 = k then (k, f (some e.2)) :: es else e :: alter k f es

theorem mem_keys_alter (k : κ) (f : Option ν → ν) (es : List (κ × ν)) (x : κ) :
    x ∈ (alter k f es).map Prod.fst ↔ x = k ∨ x ∈ es.map Prod.fst := by
  induction es with
  | nil => simp [alter]
  | cons e es ih =>
    by_cases h : e.1 = k
    · subst h; simp [alter]
    · simp only [alter, h, if_false, List.map_cons, List.mem_cons, ih]
      exact or_left_comm

theorem nodup_alter (k : κ) (f : Option ν → ν) (es : List (κ × ν))
    (h : (es.map Prod.fst).Nodup) : ((alter k f es).map Prod.fst).Nodup := by
  induction es with
  | nil => simp [alter]
  | cons e es ih =>
    rw [List.map_cons, List.nodup_cons] at h
    by_cases hk : e.1 = k
    · subst hk; simpa [alter] using h
    · simp only [alter, hk, if_false, List.map_cons, List.nodup_cons]
      refine ⟨fun hm => ?_, ih h.2⟩
      rcases (mem_keys_alter k f es e.1).mp hm with h' | h'
      · exact hk h'
      · exact h.1 h'

/-- Replaces the value under `k` by `f` of it, where `f none` is the value of a new key. -/
def upsert (c : Catalogue κ ν) (k : κ) (f : Option ν → ν) : Catalogue κ ν :=
  ⟨alter k f c.entries, nodup_alter k f c.entries c.nodup⟩

/-- Puts a value under a key, over an older one. -/
def insert (c : Catalogue κ ν) (k : κ) (v : ν) : Catalogue κ ν := c.upsert k fun _ => v

@[simp] theorem get?_empty (k : κ) : (empty : Catalogue κ ν).get? k = none := rfl

theorem find?_alter (k j : κ) (f : Option ν → ν) (es : List (κ × ν)) :
    find? j (alter k f es) = if j = k then some (f (find? k es)) else find? j es := by
  induction es with
  | nil => simp [alter, find?, eq_comm]
  | cons e es ih =>
    by_cases hk : e.1 = k
    · subst hk
      by_cases hj : j = e.1
      · simp [alter, find?, hj]
      · simp [alter, find?, hj, Ne.symm hj]
    · simp only [alter, hk, if_false, find?, ih]
      by_cases hj : j = k
      · subst hj; simp [hk]
      · simp [hj]

@[simp] theorem get?_upsert (c : Catalogue κ ν) (k j : κ) (f : Option ν → ν) :
    (c.upsert k f).get? j = if j = k then some (f (c.get? k)) else c.get? j :=
  find?_alter k j f c.entries

@[simp] theorem get?_insert (c : Catalogue κ ν) (k j : κ) (v : ν) :
    (c.insert k v).get? j = if j = k then some v else c.get? j := by simp [insert]

theorem find?_eq_some_iff {k : κ} {v : ν} {es : List (κ × ν)} (h : (es.map Prod.fst).Nodup) :
    find? k es = some v ↔ (k, v) ∈ es := by
  induction es with
  | nil => simp [find?]
  | cons e es ih =>
    obtain ⟨a, b⟩ := e
    rw [List.map_cons, List.nodup_cons] at h
    by_cases hk : a = k
    · subst hk
      have hn : ∀ w, (a, w) ∉ es := fun w hw => h.1 (List.mem_map.mpr ⟨_, hw, rfl⟩)
      simp [find?, hn, eq_comm]
    · simp [find?, hk, ih h.2, Ne.symm hk]

/-- A key holds exactly the value of its entry. -/
theorem get?_eq_some_iff (c : Catalogue κ ν) {k : κ} {v : ν} :
    c.get? k = some v ↔ (k, v) ∈ c.entries := find?_eq_some_iff c.nodup

theorem get?_eq_none_iff (c : Catalogue κ ν) {k : κ} : c.get? k = none ↔ k ∉ c.keys := by
  rw [Option.eq_none_iff_forall_ne_some]
  simp only [ne_eq, get?_eq_some_iff, keys, List.mem_map, Prod.exists, not_exists, not_and]
  exact ⟨fun h a v hm he => h v (he ▸ hm), fun h v hm => h k v hm rfl⟩

theorem contains_iff (c : Catalogue κ ν) {k : κ} : c.contains k = true ↔ k ∈ c.keys := by
  have h := c.get?_eq_none_iff (k := k)
  simp only [contains]
  cases hg : c.get? k with
  | none => simpa using h.mp hg
  | some v => simpa [hg] using h

theorem mem_keys_iff (c : Catalogue κ ν) {k : κ} : k ∈ c.keys ↔ ∃ v, c.get? k = some v := by
  simp [keys, get?_eq_some_iff]

theorem mem_values_iff (c : Catalogue κ ν) {v : ν} : v ∈ c.values ↔ ∃ k, c.get? k = some v := by
  simp [values, get?_eq_some_iff]

theorem get?_filter_eq_some_iff (c : Catalogue κ ν) {p : κ → ν → Bool} {k : κ} {v : ν} :
    (c.filter p).get? k = some v ↔ c.get? k = some v ∧ p k v = true := by
  simp [get?_eq_some_iff, filter]

end Catalogue
end GrammarInduction
