import Kiomq.Foundations.OrderedMap

/-!
# Stable priority queues

The item with the least priority leaves first, and of items with the same priority the one
that came first. Every item draws a ticket when it comes, from a counter that only grows. An
ordered map realizes such a queue if its keys are ordered by priority and then by ticket: the
first entry of the map is the item that leaves next.
-/

namespace Kiomq.Foundations

/-- An item with its priority and its ticket. -/
structure Ticketed (π ν : Type*) where
  priority : π
  ticket : ℕ
  item : ν

/-- The items that have not left, in the order in which they came. -/
structure StableQueue (π ν : Type*) where
  entries : List (Ticketed π ν)
  last : ℕ
  increasing : entries.Pairwise fun e f => e.ticket < f.ticket
  issued : ∀ e ∈ entries, e.ticket ≤ last

namespace StableQueue

variable {π ν κ : Type*}

def empty (last : ℕ) : StableQueue π ν := ⟨[], last, .nil, by simp⟩

def push (q : StableQueue π ν) (priority : π) (item : ν) : StableQueue π ν where
  entries := q.entries ++ [⟨priority, q.last + 1, item⟩]
  last := q.last + 1
  increasing := by
    refine List.pairwise_append.mpr ⟨q.increasing, List.pairwise_singleton _ _, ?_⟩
    intro e he f hf
    obtain rfl := List.mem_singleton.mp hf
    exact Nat.lt_succ_of_le (q.issued e he)
  issued := by
    intro e he
    rcases List.mem_append.mp he with he | he
    · exact Nat.le_succ_of_le (q.issued e he)
    · obtain rfl := List.mem_singleton.mp he
      exact le_rfl

def remove (q : StableQueue π ν) (ticket : ℕ) : StableQueue π ν where
  entries := q.entries.filter fun e => e.ticket ≠ ticket
  last := q.last
  increasing := q.increasing.filter _
  issued e he := q.issued e (List.mem_of_mem_filter he)

theorem ticket_unique (q : StableQueue π ν) {e f : Ticketed π ν} (he : e ∈ q.entries)
    (hf : f ∈ q.entries) (h : e.ticket = f.ticket) : e = f := by
  have hnodup : (q.entries.map Ticketed.ticket).Nodup := by
    rw [List.nodup_iff_pairwise_ne, List.pairwise_map]
    exact q.increasing.imp fun h => ne_of_lt h
  exact List.inj_on_of_nodup_map hnodup he hf h

variable [LinearOrder π] [LinearOrder κ]

/-- The first of the two leaves before the second. -/
def Before (e f : Ticketed π ν) : Prop :=
  e.priority < f.priority ∨ e.priority = f.priority ∧ e.ticket < f.ticket

theorem before_or_before (q : StableQueue π ν) {e f : Ticketed π ν} (he : e ∈ q.entries)
    (hf : f ∈ q.entries) (hne : e ≠ f) : Before e f ∨ Before f e := by
  rcases lt_trichotomy e.priority f.priority with hlt | heq | hgt
  · exact Or.inl (Or.inl hlt)
  · rcases lt_trichotomy e.ticket f.ticket with hlt | hsame | hgt
    · exact Or.inl (Or.inr ⟨heq, hlt⟩)
    · exact absurd (q.ticket_unique he hf hsame) hne
    · exact Or.inr (Or.inr ⟨heq.symm, hgt⟩)
  · exact Or.inr (Or.inl hgt)

def First (q : StableQueue π ν) (e : Ticketed π ν) : Prop :=
  e ∈ q.entries ∧ ∀ f ∈ q.entries, f ≠ e → Before e f

theorem First.split {q : StableQueue π ν} {e : Ticketed π ν} (h : q.First e) :
    ∃ earlier later, q.entries = earlier ++ e :: later ∧
      (∀ f ∈ earlier, e.priority < f.priority) ∧ ∀ f ∈ later, e.priority ≤ f.priority := by
  obtain ⟨hmem, hfirst⟩ := h
  obtain ⟨earlier, later, hsplit⟩ := List.append_of_mem hmem
  have hincreasing := q.increasing
  rw [hsplit, List.pairwise_append, List.pairwise_cons] at hincreasing
  obtain ⟨-, ⟨hlater, -⟩, hearlier⟩ := hincreasing
  refine ⟨earlier, later, hsplit, fun f hf => ?_, fun f hf => ?_⟩
  · have hticket : f.ticket < e.ticket := hearlier f hf e List.mem_cons_self
    have hin : f ∈ q.entries := hsplit ▸ List.mem_append_left _ hf
    rcases hfirst f hin (fun h => (h ▸ hticket).false) with hlt | ⟨-, hlt⟩
    · exact hlt
    · exact absurd hlt hticket.not_gt
  · have hticket : e.ticket < f.ticket := hlater f hf
    have hin : f ∈ q.entries := hsplit ▸ List.mem_append_right _ (List.mem_cons_of_mem _ hf)
    rcases hfirst f hin (fun h => (h ▸ hticket).false) with hlt | ⟨heq, -⟩
    · exact hlt.le
    · exact heq.le

/-! ### Realization by an ordered map -/

/-- The keys respect the order in which the items leave. -/
def Keyed (key : π → ℕ → κ) (q : StableQueue π ν) : Prop :=
  ∀ e ∈ q.entries, ∀ f ∈ q.entries, Before e f → key e.priority e.ticket < key f.priority f.ticket

def stored (key : π → ℕ → κ) (e : Ticketed π ν) : κ × ν := (key e.priority e.ticket, e.item)

/-- The map holds the items of the queue, in the order in which they leave. -/
structure RealizedBy (key : π → ℕ → κ) (q : StableQueue π ν) (m : OrderedMap κ ν) : Prop where
  keyed : q.Keyed key
  perm : m.entries.Perm (q.entries.map (stored key))

variable {key : π → ℕ → κ} {q : StableQueue π ν} {m : OrderedMap κ ν}

theorem Keyed.eq_of_key_eq (h : q.Keyed key) {e f : Ticketed π ν} (he : e ∈ q.entries)
    (hf : f ∈ q.entries) (hkey : key e.priority e.ticket = key f.priority f.ticket) : e = f := by
  by_contra hne
  rcases q.before_or_before he hf hne with hbefore | hbefore
  · exact (h e he f hf hbefore).ne hkey
  · exact (h f hf e he hbefore).ne hkey.symm

theorem Keyed.remove (h : q.Keyed key) (ticket : ℕ) : (q.remove ticket).Keyed key :=
  fun e he f hf => h e (List.mem_of_mem_filter he) f (List.mem_of_mem_filter hf)

theorem realizedBy_empty (key : π → ℕ → κ) (last : ℕ) :
    (empty last : StableQueue π ν).RealizedBy key .empty :=
  ⟨by simp [Keyed, empty], List.Perm.refl _⟩

theorem RealizedBy.push (h : q.RealizedBy key m) (priority : π) (item : ν)
    (hkeyed : (q.push priority item).Keyed key) :
    (q.push priority item).RealizedBy key (m.insert (key priority (q.last + 1)) item) := by
  have hnew : m.get? (key priority (q.last + 1)) = none := by
    rw [Option.eq_none_iff_forall_ne_some]
    intro v hv
    have hin := h.perm.mem_iff.mp ((m.get?_eq_some_iff _ _).mp hv)
    obtain ⟨e, he, hstored⟩ := List.mem_map.mp hin
    have hsame := hkeyed.eq_of_key_eq (List.mem_append_left _ he)
      (List.mem_append_right _ (List.mem_singleton_self _)) (congrArg Prod.fst hstored)
    have hissued := q.issued e he
    rw [hsame] at hissued
    exact absurd hissued (Nat.not_succ_le_self _)
  refine ⟨hkeyed, (m.insert_perm item hnew).trans ?_⟩
  have hentries : (q.push priority item).entries.map (stored key) =
      q.entries.map (stored key) ++ [(key priority (q.last + 1), item)] := by
    simp [StableQueue.push, stored]
  rw [hentries]
  exact (h.perm.cons _).trans (List.perm_append_singleton _ _).symm

theorem RealizedBy.entries_eq_nil (h : q.RealizedBy key m) (hfront : m.front? = none) :
    q.entries = [] := by
  have hnil : m.entries = [] := List.head?_eq_none_iff.mp hfront
  have hlength := h.perm.length_eq
  rw [hnil, List.length_map] at hlength
  exact List.eq_nil_of_length_eq_zero hlength.symm

theorem RealizedBy.front (h : q.RealizedBy key m) {x : κ × ν} (hfront : m.front? = some x) :
    ∃ e, q.First e ∧ stored key e = x := by
  obtain ⟨tail, htail⟩ := List.head?_eq_some_iff.mp hfront
  have hsorted := m.sorted
  rw [htail, List.pairwise_cons] at hsorted
  have hx : x ∈ m.entries := htail ▸ List.mem_cons_self
  obtain ⟨e, he, hstored⟩ := List.mem_map.mp (h.perm.mem_iff.mp hx)
  refine ⟨e, ⟨he, fun f hf hne => ?_⟩, hstored⟩
  refine (q.before_or_before he hf hne.symm).resolve_right fun hbefore => ?_
  -- an item before it would have a smaller key than the first one
  have hlt : key f.priority f.ticket < x.1 := hstored ▸ h.keyed f hf e he hbefore
  have hin : stored key f ∈ m.entries := h.perm.mem_iff.mpr (List.mem_map_of_mem hf)
  rw [htail] at hin
  rcases List.mem_cons.mp hin with hsame | hin
  · exact absurd (congrArg Prod.fst hsame) hlt.ne
  · exact absurd (hsorted.1 _ hin) hlt.not_gt

theorem RealizedBy.remove (h : q.RealizedBy key m) {e : Ticketed π ν} (he : e ∈ q.entries) :
    (q.remove e.ticket).RealizedBy key (m.remove (stored key e).1) := by
  refine ⟨h.keyed.remove _, (h.perm.filter _).trans (List.Perm.of_eq ?_)⟩
  have hkeep : ∀ f ∈ q.entries, decide ((stored key f).1 ≠ (stored key e).1) =
      decide (f.ticket ≠ e.ticket) := by
    intro f hf
    rw [decide_eq_decide, not_iff_not]
    constructor
    · intro hkey
      rw [h.keyed.eq_of_key_eq hf he hkey]
    · intro hticket
      rw [q.ticket_unique hf he hticket]
  rw [List.filter_map]
  exact congrArg (List.map (stored key)) (List.filter_congr hkeep)

end StableQueue

end Kiomq.Foundations
