import Mathlib.Data.List.Basic
import Mathlib.Data.List.Perm.Basic
import Mathlib.Order.Basic
import Mathlib.Tactic

/-!
# Finite maps listed in key order

A map is the list of its entries, and the strict order of the keys is a field of
the structure, so that a key never occurs twice and the first and last entries
are the extreme ones. Every operation is executable. The lookup is described
once, by `get?_eq_some_iff`; the multiplicity of a stored value, which is what an
accounting argument needs, is described by the `count_values` lemmas.
-/

namespace Kiomq.Foundations

theorem filter_eq_filter_iff {α : Type*} {p q : α → Bool} {l : List α} :
    l.filter p = l.filter q ↔ ∀ x ∈ l, p x = q x := by
  constructor
  · intro h x hx
    have hmem : x ∈ l.filter p ↔ x ∈ l.filter q := by rw [h]
    rw [List.mem_filter, List.mem_filter, and_congr_right_iff] at hmem
    exact Bool.eq_iff_iff.mpr (hmem hx)
  · exact List.filter_congr

/-- A finite map, stored as its entries in strictly increasing key order. -/
@[ext] structure OrderedMap (κ ν : Type*) [LinearOrder κ] where
  entries : List (κ × ν)
  sorted : entries.Pairwise fun a b => a.1 < b.1

namespace OrderedMap

variable {κ ν : Type*} [LinearOrder κ]

def insertEntry (k : κ) (v : ν) : List (κ × ν) → List (κ × ν)
  | [] => [(k, v)]
  | e :: es =>
    if k < e.1 then (k, v) :: e :: es
    else if k = e.1 then (k, v) :: es
    else e :: insertEntry k v es

theorem mem_insertEntry_of {k : κ} {v : ν} {x : κ × ν} {es : List (κ × ν)}
    (h : x ∈ insertEntry k v es) : x = (k, v) ∨ x ∈ es := by
  induction es with
  | nil => simpa [insertEntry] using h
  | cons e es ih =>
    unfold insertEntry at h
    split_ifs at h with hlt heq
    · simpa using h
    · rcases List.mem_cons.mp h with h | h
      · exact Or.inl h
      · exact Or.inr (List.mem_cons_of_mem _ h)
    · rcases List.mem_cons.mp h with h | h
      · exact Or.inr (by simp [h])
      · exact (ih h).imp_right (List.mem_cons_of_mem _)

theorem insertEntry_sorted (k : κ) (v : ν) {es : List (κ × ν)}
    (h : es.Pairwise fun a b => a.1 < b.1) :
    (insertEntry k v es).Pairwise fun a b => a.1 < b.1 := by
  induction es with
  | nil => simp [insertEntry]
  | cons e es ih =>
    obtain ⟨he, hes⟩ := List.pairwise_cons.mp h
    unfold insertEntry
    split_ifs with hlt heq
    · refine List.pairwise_cons.mpr ⟨?_, h⟩
      intro x hx
      rcases List.mem_cons.mp hx with rfl | hx
      · exact hlt
      · exact hlt.trans (he x hx)
    · subst heq
      exact List.pairwise_cons.mpr ⟨he, hes⟩
    · refine List.pairwise_cons.mpr ⟨?_, ih hes⟩
      intro x hx
      rcases mem_insertEntry_of hx with rfl | hx
      · exact lt_of_le_of_ne (not_lt.mp hlt) (Ne.symm heq)
      · exact he x hx

def empty : OrderedMap κ ν := ⟨[], List.Pairwise.nil⟩

def insert (m : OrderedMap κ ν) (k : κ) (v : ν) : OrderedMap κ ν :=
  ⟨insertEntry k v m.entries, insertEntry_sorted k v m.sorted⟩

/-- Keep the entries that satisfy `p`; removal through an iterator is of this form. -/
def filter (m : OrderedMap κ ν) (p : κ × ν → Bool) : OrderedMap κ ν :=
  ⟨m.entries.filter p, m.sorted.filter p⟩

def remove (m : OrderedMap κ ν) (k : κ) : OrderedMap κ ν := m.filter fun e => e.1 ≠ k

def get? (m : OrderedMap κ ν) (k : κ) : Option ν :=
  (m.entries.find? fun e => e.1 = k).map Prod.snd

def containsKey (m : OrderedMap κ ν) (k : κ) : Bool := m.entries.any fun e => e.1 = k

def modify (m : OrderedMap κ ν) (k : κ) (f : ν → ν) : OrderedMap κ ν :=
  ⟨m.entries.map fun e => if e.1 = k then (e.1, f e.2) else e, by
    rw [List.pairwise_map]
    refine m.sorted.imp ?_
    intro a b hab
    split_ifs <;> exact hab⟩

def mapValues (m : OrderedMap κ ν) (f : ν → ν) : OrderedMap κ ν :=
  ⟨m.entries.map fun e => (e.1, f e.2), by
    rw [List.pairwise_map]
    exact m.sorted⟩

def front? (m : OrderedMap κ ν) : Option (κ × ν) := m.entries.head?

def back? (m : OrderedMap κ ν) : Option (κ × ν) := m.entries.getLast?

def keys (m : OrderedMap κ ν) : List κ := m.entries.map Prod.fst

def values (m : OrderedMap κ ν) : List ν := m.entries.map Prod.snd

def size (m : OrderedMap κ ν) : ℕ := m.entries.length

@[simp] theorem entries_empty : (empty : OrderedMap κ ν).entries = [] := rfl

@[simp] theorem entries_filter (m : OrderedMap κ ν) (p : κ × ν → Bool) :
    (m.filter p).entries = m.entries.filter p := rfl

/-! ### Lookup -/

theorem nodup_keys (m : OrderedMap κ ν) : m.keys.Nodup := by
  unfold keys
  rw [List.nodup_iff_pairwise_ne, List.pairwise_map]
  exact m.sorted.imp fun h => ne_of_lt h

theorem key_unique (m : OrderedMap κ ν) {a b : κ × ν} (ha : a ∈ m.entries)
    (hb : b ∈ m.entries) (hk : a.1 = b.1) : a = b :=
  List.inj_on_of_nodup_map m.nodup_keys ha hb hk

theorem get?_eq_some_iff (m : OrderedMap κ ν) (k : κ) (v : ν) :
    m.get? k = some v ↔ (k, v) ∈ m.entries := by
  unfold get?
  constructor
  · intro h
    obtain ⟨e, he, hv⟩ := Option.map_eq_some_iff.mp h
    have hk : e.1 = k := by simpa using List.find?_some he
    have hm := List.mem_of_find?_eq_some he
    obtain ⟨e₁, e₂⟩ := e
    simp only at hk hv
    subst hk hv
    exact hm
  · intro h
    cases hf : m.entries.find? fun e => e.1 = k with
    | none =>
      have := List.find?_eq_none.mp hf (k, v) h
      simp at this
    | some e =>
      have hk : e.1 = k := by simpa using List.find?_some hf
      have := m.key_unique (List.mem_of_find?_eq_some hf) h hk
      simp [this]

theorem containsKey_eq (m : OrderedMap κ ν) (k : κ) :
    m.containsKey k = (m.get? k).isSome := by
  unfold containsKey get?
  rw [Option.isSome_map, Bool.eq_iff_iff, List.any_eq_true, List.find?_isSome]

theorem mem_insert (m : OrderedMap κ ν) (k : κ) (v : ν) (x : κ × ν) :
    x ∈ (m.insert k v).entries ↔ x = (k, v) ∨ (x ∈ m.entries ∧ x.1 ≠ k) := by
  obtain ⟨es, hs⟩ := m
  simp only [insert]
  induction es with
  | nil => simp [insertEntry]
  | cons e es ih =>
    obtain ⟨he, hes⟩ := List.pairwise_cons.mp hs
    unfold insertEntry
    split_ifs with hlt heq
    · have hne : ∀ y ∈ e :: es, y.1 ≠ k := by
        intro y hy
        rcases List.mem_cons.mp hy with rfl | hy
        · exact ne_of_gt hlt
        · exact ne_of_gt (hlt.trans (he y hy))
      constructor
      · intro hx
        exact (List.mem_cons.mp hx).imp_right fun h => ⟨h, hne x h⟩
      · rintro (rfl | ⟨hx, -⟩)
        · simp
        · exact List.mem_cons_of_mem _ hx
    · subst heq
      constructor
      · intro hx
        exact (List.mem_cons.mp hx).imp_right fun h =>
          ⟨List.mem_cons_of_mem _ h, ne_of_gt (he x h)⟩
      · rintro (rfl | ⟨hx, hk⟩)
        · simp
        · rcases List.mem_cons.mp hx with rfl | hx
          · exact absurd rfl hk
          · exact List.mem_cons_of_mem _ hx
    · rw [List.mem_cons, ih hes, List.mem_cons]
      constructor
      · rintro (rfl | h | ⟨h, hk⟩)
        · exact Or.inr ⟨Or.inl rfl, Ne.symm heq⟩
        · exact Or.inl h
        · exact Or.inr ⟨Or.inr h, hk⟩
      · rintro (h | ⟨rfl | h, hk⟩)
        · exact Or.inr (Or.inl h)
        · exact Or.inl rfl
        · exact Or.inr (Or.inr ⟨h, hk⟩)

theorem get?_insert (m : OrderedMap κ ν) (k k' : κ) (v : ν) :
    (m.insert k v).get? k' = if k' = k then some v else m.get? k' := by
  ext w
  rw [get?_eq_some_iff, mem_insert]
  split_ifs with h
  · subst h
    simp [eq_comm]
  · rw [get?_eq_some_iff]
    simp [h]

theorem get?_filter_key (m : OrderedMap κ ν) (p : κ → Bool) (k : κ) :
    (m.filter fun e => p e.1).get? k = if p k then m.get? k else none := by
  ext w
  rw [get?_eq_some_iff]
  split_ifs with h <;> simp [h, get?_eq_some_iff]

theorem get?_filter (m : OrderedMap κ ν) (p : κ × ν → Bool) (k : κ) :
    (m.filter p).get? k = (m.get? k).filter fun v => p (k, v) := by
  ext v
  rw [get?_eq_some_iff, entries_filter, List.mem_filter, ← get?_eq_some_iff,
    Option.filter_eq_some_iff]

theorem get?_remove (m : OrderedMap κ ν) (k k' : κ) :
    (m.remove k).get? k' = if k' = k then none else m.get? k' := by
  unfold remove
  rw [get?_filter_key m fun x => x ≠ k]
  by_cases h : k' = k <;> simp [h]

theorem get?_modify (m : OrderedMap κ ν) (k k' : κ) (f : ν → ν) :
    (m.modify k f).get? k' = if k' = k then (m.get? k').map f else m.get? k' := by
  ext w
  rw [get?_eq_some_iff]
  simp only [modify, List.mem_map]
  split_ifs with h
  · subst h
    rw [Option.map_eq_some_iff]
    constructor
    · rintro ⟨e, he, heq⟩
      split_ifs at heq with hk
      · obtain ⟨rfl, rfl⟩ := Prod.mk.inj heq
        exact ⟨e.2, (m.get?_eq_some_iff _ _).mpr he, rfl⟩
      · exact absurd (congrArg Prod.fst heq) hk
    · rintro ⟨x, hx, rfl⟩
      exact ⟨(k', x), (m.get?_eq_some_iff _ _).mp hx, by simp⟩
  · rw [get?_eq_some_iff]
    constructor
    · rintro ⟨e, he, heq⟩
      split_ifs at heq with hk
      · exact absurd ((congrArg Prod.fst heq).symm.trans hk) h
      · exact heq ▸ he
    · intro hx
      exact ⟨(k', w), hx, by simp [h]⟩

theorem get?_mapValues (m : OrderedMap κ ν) (f : ν → ν) (k : κ) :
    (m.mapValues f).get? k = (m.get? k).map f := by
  simp [get?, mapValues, List.find?_map, Function.comp_def]

theorem mem_keys (m : OrderedMap κ ν) (k : κ) : k ∈ m.keys ↔ ∃ v, m.get? k = some v := by
  simp [keys, get?_eq_some_iff]

theorem mem_values_iff (m : OrderedMap κ ν) (v : ν) : v ∈ m.values ↔ ∃ k, m.get? k = some v := by
  simp [values, get?_eq_some_iff]

/-- After an insertion the new value is there, and of the old ones those that are stored
under another key. -/
theorem mem_values_insert_iff (m : OrderedMap κ ν) (k : κ) (v w : ν) :
    w ∈ (m.insert k v).values ↔ w = v ∨ ∃ k', k' ≠ k ∧ m.get? k' = some w := by
  rw [mem_values_iff]
  constructor
  · rintro ⟨k', hk'⟩
    rw [get?_insert] at hk'
    split_ifs at hk' with hk
    · exact Or.inl (Option.some.inj hk').symm
    · exact Or.inr ⟨k', hk, hk'⟩
  · rintro (rfl | ⟨k', hk, hk'⟩)
    · exact ⟨k, by rw [get?_insert, if_pos rfl]⟩
    · exact ⟨k', by rw [get?_insert, if_neg hk, hk']⟩

theorem nodup_entries (m : OrderedMap κ ν) : m.entries.Nodup :=
  List.Nodup.of_map Prod.fst m.nodup_keys

theorem values_filter_perm (m : OrderedMap κ ν) (p : κ × ν → Bool) :
    ((m.filter p).values ++ (m.filter fun e => !p e).values).Perm m.values := by
  simp only [values, entries_filter, ← List.map_append]
  exact (List.filter_append_perm p m.entries).map Prod.snd

theorem insert_perm (m : OrderedMap κ ν) {k : κ} (v : ν) (h : m.get? k = none) :
    (m.insert k v).entries.Perm ((k, v) :: m.entries) := by
  have hkey : ∀ e ∈ m.entries, e.1 ≠ k := by
    rintro ⟨k', w⟩ he rfl
    rw [(m.get?_eq_some_iff k' w).mpr he] at h
    simp at h
  rw [List.perm_ext_iff_of_nodup (nodup_entries _)]
  · intro e
    rw [mem_insert, List.mem_cons]
    exact or_congr_right ⟨And.left, fun he => ⟨he, hkey e he⟩⟩
  · exact List.nodup_cons.mpr ⟨fun hm => hkey _ hm rfl, m.nodup_entries⟩

theorem remove_perm (m : OrderedMap κ ν) {k : κ} {v : ν} (h : m.get? k = some v) :
    m.entries.Perm ((k, v) :: (m.remove k).entries) := by
  have hmem := (m.get?_eq_some_iff k v).mp h
  have hrest : ∀ e, e ∈ (m.remove k).entries ↔ e ∈ m.entries ∧ e.1 ≠ k := by
    simp [remove]
  rw [List.perm_ext_iff_of_nodup m.nodup_entries]
  · intro e
    rw [List.mem_cons, hrest]
    constructor
    · intro he
      by_cases hk : e.1 = k
      · exact Or.inl (m.key_unique he hmem hk)
      · exact Or.inr ⟨he, hk⟩
    · rintro (rfl | ⟨he, -⟩)
      · exact hmem
      · exact he
  · exact List.nodup_cons.mpr ⟨fun hm => ((hrest _).mp hm).2 rfl, nodup_entries _⟩

/-! ### The ends of the order -/

theorem insert_entries_front (m : OrderedMap κ ν) (k : κ) (v : ν)
    (h : ∀ e ∈ m.entries, k < e.1) : (m.insert k v).entries = (k, v) :: m.entries := by
  cases hm : m.entries with
  | nil => simp [insert, insertEntry, hm]
  | cons e es => simp [insert, insertEntry, hm, h e (by simp [hm])]

theorem insert_entries_back (m : OrderedMap κ ν) (k : κ) (v : ν)
    (h : ∀ e ∈ m.entries, e.1 < k) : (m.insert k v).entries = m.entries ++ [(k, v)] := by
  obtain ⟨es, hs⟩ := m
  simp only [insert] at h ⊢
  induction es with
  | nil => rfl
  | cons e es ih =>
    have he := h e (by simp)
    simp only [insertEntry, if_neg he.le.not_gt, if_neg he.ne', List.cons_append, List.cons.injEq,
      true_and]
    exact ih (List.pairwise_cons.mp hs).2 fun x hx => h x (List.mem_cons_of_mem _ hx)

theorem remove_entries_middle (m : OrderedMap κ ν) {before after : List (κ × ν)} {e : κ × ν}
    (h : m.entries = before ++ e :: after) : (m.remove e.1).entries = before ++ after := by
  have hsorted := m.sorted
  rw [h, List.pairwise_append, List.pairwise_cons] at hsorted
  obtain ⟨-, ⟨hafter, -⟩, hbefore⟩ := hsorted
  simp only [remove, entries_filter, ne_eq, decide_not, h, List.filter_append]
  rw [List.filter_cons_of_neg (by simp), List.filter_eq_self.mpr, List.filter_eq_self.mpr]
  · intro x hx
    simpa using ne_of_gt (hafter x hx)
  · intro x hx
    simpa using ne_of_lt (hbefore x hx e List.mem_cons_self)

theorem remove_entries_front (m : OrderedMap κ ν) {e : κ × ν} (h : m.front? = some e) :
    (m.remove e.1).entries = m.entries.tail := by
  obtain ⟨rest, hrest⟩ := List.head?_eq_some_iff.mp h
  rw [m.remove_entries_middle (show m.entries = [] ++ e :: rest from hrest), hrest]
  rfl

theorem remove_entries_back (m : OrderedMap κ ν) {e : κ × ν} (h : m.back? = some e) :
    (m.remove e.1).entries = m.entries.dropLast := by
  obtain ⟨rest, hrest⟩ := List.getLast?_eq_some_iff.mp h
  rw [m.remove_entries_middle hrest, hrest, List.dropLast_concat, List.append_nil]

/-! ### Multiplicity of values -/

section Count

variable [DecidableEq ν]

theorem count_values_insert_le (m : OrderedMap κ ν) (k : κ) (v x : ν) :
    (m.insert k v).values.count x ≤ m.values.count x + if v = x then 1 else 0 := by
  obtain ⟨es, hs⟩ := m
  simp only [insert, values]
  clear hs
  induction es with
  | nil => simp [insertEntry, List.count_cons]
  | cons e es ih =>
    unfold insertEntry
    split_ifs with hlt heq
    all_goals
      simp only [List.map_cons, List.count_cons, beq_iff_eq] at *
      split_ifs at * <;> omega

theorem count_values_filter_le (m : OrderedMap κ ν) (p : κ × ν → Bool) (x : ν) :
    (m.filter p).values.count x ≤ m.values.count x :=
  (List.filter_sublist.map Prod.snd).count_le x

theorem count_values_remove_le (m : OrderedMap κ ν) (k : κ) (x : ν) :
    (m.remove k).values.count x ≤ m.values.count x := m.count_values_filter_le _ x

/-- Removing through an iterator every entry that holds `x` leaves no copy of `x`
and does not touch the other values. -/
theorem count_values_filter_ne (m : OrderedMap κ ν) (x y : ν) :
    (m.filter fun e => e.2 ≠ x).values.count y = if y = x then 0 else m.values.count y := by
  have h : (m.filter fun e => e.2 ≠ x).values = m.values.filter fun v => v ≠ x := by
    simp only [values, entries_filter, List.filter_map, Function.comp_def]
  rw [h]
  split_ifs with hy
  · subst hy
    rw [List.count_eq_zero]
    simp
  · exact List.count_filter (by simpa using hy)

theorem count_values_split (m : OrderedMap κ ν) (p : κ × ν → Bool) (x : ν) :
    (m.filter p).values.count x + (m.filter fun e => !p e).values.count x =
      m.values.count x := by
  rw [← List.count_append]
  exact (m.values_filter_perm p).count_eq x

end Count

end OrderedMap

end Kiomq.Foundations
