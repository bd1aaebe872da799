import Kiomq.Foundations.Pages
import Kiomq.Queue.Stalled
import Kiomq.Stores.Membership

/-!
# Paging through a collection

`get_job_ids_in_state` turns the two positions it is given into the keys of the entries there,
and lists the entries between the keys. A position behind the last entry has no key, and the
answer is empty. So a page that reaches over the end of a collection is lost: the pages make up
the collection just if its length is a multiple of theirs.
-/

namespace Kiomq

open Foundations

variable {D R P : Type}

namespace InMemoryStore

/-! ### Listing by keys -/

/-- One branch of `get_job_ids_in_state`: the keys at the two positions are looked up, and the
entries between them are read. -/
def listRange {κ ν : Type} [LinearOrder κ] (m : OrderedMap κ ν) (value : κ × ν → ℕ)
    (start : ℕ) (stop : Option ℕ) : List ℕ :=
  if m.entries.isEmpty then []
  else
    let stop := stop.getD (m.size - 1)
    match m.entries[start]?, m.entries[stop]? with
    | some first, some last => (m.between first.1 last.1).map value
    | _, _ => []

namespace Keyed

/-- `get_job_ids_in_state`, with the key ranges of the source. -/
def getJobIdsInState (s : InMemoryStore D R P) (state : JobState) (start stop : Option ℕ) :
    List ℕ :=
  let start := start.getD 0
  match state with
  | .wait => listRange s.waiting.data Prod.snd start stop
  | .prioritized => listRange s.prioritized Prod.snd start stop
  | .stalled => listRange s.stalled Prod.fst start stop
  | .active => listRange s.active.data Prod.snd start stop
  | .paused => listRange s.paused.data Prod.snd start stop
  | .completed => listRange s.completed Prod.snd start stop
  | .failed => listRange s.failed Prod.snd start stop
  | .delayed => listRange s.delayed Prod.snd start stop
  | _ => []

end Keyed

theorem listRange_eq {κ ν : Type} [LinearOrder κ] (m : OrderedMap κ ν) (value : κ × ν → ℕ)
    (start : ℕ) (stop : Option ℕ) :
    listRange m value start stop = idRange (m.entries.map value) start stop := by
  unfold listRange idRange OrderedMap.size
  rw [List.length_map]
  generalize stop.getD (m.entries.length - 1) = last
  cases hnil : m.entries.isEmpty with
  | true => simp [List.isEmpty_iff.mp hnil]
  | false =>
    simp only [Bool.false_eq_true, if_false]
    by_cases hstart : start < m.entries.length
    · by_cases hlast : last < m.entries.length
      · have hfirst := List.getElem?_eq_getElem hstart
        have hstop := List.getElem?_eq_getElem hlast
        simp only [hfirst, hstop, hstart, hlast, and_self, if_true]
        rw [m.between_eq_slice hfirst hstop, List.map_drop, List.map_take]
      · have hstop := List.getElem?_eq_none (Nat.not_lt.mp hlast)
        rw [if_neg (fun h => hlast h.2)]
        simp only [hstop]
        split <;> simp_all
    · have hfirst := List.getElem?_eq_none (Nat.not_lt.mp hstart)
      rw [if_neg (fun h => hstart h.1)]
      simp only [hfirst]

theorem Keyed.getJobIdsInState_eq (s : InMemoryStore D R P) (state : JobState)
    (start stop : Option ℕ) :
    Keyed.getJobIdsInState s state start stop = s.getJobIdsInState state start stop := by
  cases state <;> first | rfl | exact listRange_eq _ _ _ _

/-- The ids of a state, in the order of their keys. A state without a collection has none. -/
def idsIn (s : InMemoryStore D R P) : JobState → List ℕ
  | .wait => s.waiting.values
  | .prioritized => s.prioritized.values
  | .stalled => s.stalled.keys
  | .active => s.active.values
  | .paused => s.paused.values
  | .completed => s.completed.values
  | .failed => s.failed.values
  | .delayed => s.delayed.values
  | _ => []

theorem getJobIdsInState_eq_idRange (s : InMemoryStore D R P) (state : JobState)
    (start stop : Option ℕ) :
    s.getJobIdsInState state start stop = idRange (s.idsIn state) (start.getD 0) stop := by
  cases state <;> rfl

/-! ### Pages -/

def pages (s : InMemoryStore D R P) (state : JobState) (k : ℕ) : List ℕ :=
  let length := (s.idsIn state).length
  ((List.range length).filter fun i => i * k < length).flatMap fun i =>
    Keyed.getJobIdsInState s state (some (i * k)) (some (i * k + k - 1))

theorem idRange_page (ids : List ℕ) {k : ℕ} (hk : 0 < k) (i : ℕ) :
    idRange ids (i * k) (some (i * k + k - 1)) =
      if i * k + k ≤ ids.length then (ids.drop (i * k)).take k else [] := by
  have hend : i * k + k - 1 + 1 = i * k + k := by omega
  simp only [idRange, Option.getD_some, hend]
  by_cases hpage : i * k + k ≤ ids.length
  · rw [if_pos ⟨by omega, by omega⟩, if_pos hpage, List.drop_take, Nat.add_sub_cancel_left]
  · rw [if_neg (fun h => hpage (by omega)), if_neg hpage]

theorem pages_eq_take (s : InMemoryStore D R P) (state : JobState) {k : ℕ} (hk : 0 < k) :
    s.pages state k =
      (s.idsIn state).take ((s.idsIn state).length / k * k) := by
  have hpage : ∀ i, Keyed.getJobIdsInState s state (some (i * k)) (some (i * k + k - 1)) =
      if i * k + k ≤ (s.idsIn state).length then ((s.idsIn state).drop (i * k)).take k else [] := by
    intro i
    rw [Keyed.getJobIdsInState_eq, getJobIdsInState_eq_idRange]
    exact idRange_page (s.idsIn state) hk i
  have hempty : ∀ i ∈ List.range (s.idsIn state).length,
      decide (i * k < (s.idsIn state).length) = false →
        (if i * k + k ≤ (s.idsIn state).length then ((s.idsIn state).drop (i * k)).take k
          else []) = [] := by
    intro i _ hi
    have hover : ¬ i * k < (s.idsIn state).length := of_decide_eq_false hi
    rw [if_neg (by omega)]
  unfold pages
  simp only [hpage]
  rw [flatMap_filter_of_nil _ _ _ hempty, flatMap_whole_pages _ hk,
    min_eq_right (Nat.div_le_self _ _)]

/-- The pages make up the whole collection just if its length is a multiple of the size. -/
theorem pages_complete_iff (s : InMemoryStore D R P) (state : JobState) {k : ℕ} (hk : 1 ≤ k) :
    s.pages state k = Keyed.getJobIdsInState s state none none ↔
      k ∣ (s.idsIn state).length := by
  have hall : Keyed.getJobIdsInState s state none none = s.idsIn state := by
    rw [Keyed.getJobIdsInState_eq, getJobIdsInState_eq_idRange]
    exact idRange_all (s.idsIn state)
  rw [hall, s.pages_eq_take state hk]
  exact take_whole_pages_eq_iff (s.idsIn state) k

def threeWaiting : InMemoryStore Unit Unit Unit :=
  (mail.addBulk [("first", none, ()), ("second", none, ()), ("third", none, ())] {} false ⟨0, 0⟩).2

theorem threeWaiting_pages_of_one :
    threeWaiting.pages .wait 1 = Keyed.getJobIdsInState threeWaiting .wait none none :=
  (threeWaiting.pages_complete_iff .wait (by decide)).mpr (by decide +kernel)

/-- The second page of two has one job, and it is empty. -/
theorem threeWaiting_pages_of_two :
    threeWaiting.pages .wait 2 = [3, 2] ∧
      Keyed.getJobIdsInState threeWaiting .wait none none = [3, 2, 1] ∧
      threeWaiting.pages .wait 2 ≠ Keyed.getJobIdsInState threeWaiting .wait none none := by
  refine ⟨by decide +kernel, by decide +kernel, by decide +kernel⟩

end InMemoryStore

end Kiomq
