import Mathlib.Data.List.Basic
import Mathlib.Tactic

/-!
# Journals of keyed transitions

A journal is a list of reports, each of which says that a key has gone from one state to
another. A reader who keeps the last report about each key knows the state of every key, if
every change of a state is reported. Keys may disappear without a report.
-/

namespace Kiomq.Foundations

/-- The key has gone to the state `after`; a report without `before` announces a new key. -/
structure Report (K S : Type*) where
  key : K
  before : Option S
  after : S
  deriving DecidableEq, Repr

variable {K S : Type*} [DecidableEq K]

/-- The state that the last report about the key tells. -/
def latest (log : List (Report K S)) (k : K) : Option S :=
  log.foldl (fun found r => if r.key = k then some r.after else found) none

theorem latest_append (log : List (Report K S)) (r : Report K S) (k : K) :
    latest (log ++ [r]) k = if r.key = k then some r.after else latest log k := by
  simp [latest, List.foldl_append]

theorem latest_append_self (log : List (Report K S)) (r : Report K S) :
    latest (log ++ [r]) r.key = some r.after := by
  rw [latest_append, if_pos rfl]

theorem latest_append_of_ne {r : Report K S} {k : K} (h : k ≠ r.key) (log : List (Report K S)) :
    latest (log ++ [r]) k = latest log k := by
  rw [latest_append, if_neg h.symm]

/-- The report goes on from the log: a new key has not been reported, and a known one leaves the
state that it was last reported in. -/
def Report.Continues (log : List (Report K S)) (r : Report K S) : Prop :=
  latest log r.key = r.before

/-- Each report goes on from the reports before it. -/
inductive Coherent : List (Report K S) → Prop
  | nil : Coherent []
  | append {log : List (Report K S)} {r : Report K S} :
      Coherent log → r.Continues log → Coherent (log ++ [r])

/-- The journal is coherent, and its reader knows the state of every key that has one. -/
structure Journals (log : List (Report K S)) (state : K → Option S) : Prop where
  coherent : Coherent log
  known : ∀ k s, state k = some s → latest log k = some s

namespace Journals

variable {log : List (Report K S)} {state state' : K → Option S}

theorem nil (h : ∀ k, state k = none) : Journals [] state := by
  refine ⟨.nil, fun k s hk => ?_⟩
  rw [h k] at hk
  cases hk

theorem fewer (h : Journals log state) (hfewer : ∀ k s, state' k = some s → state k = some s) :
    Journals log state' :=
  ⟨h.coherent, fun k s hk => h.known k s (hfewer k s hk)⟩

theorem write (h : Journals log state) {r : Report K S} (hr : r.Continues log)
    (hself : ∀ s, state' r.key = some s → s = r.after)
    (hrest : ∀ j s, j ≠ r.key → state' j = some s → state j = some s) :
    Journals (log ++ [r]) state' := by
  refine ⟨h.coherent.append hr, fun j s hj => ?_⟩
  by_cases hjk : j = r.key
  · subst hjk
    rw [latest_append_self, hself s hj]
  · rw [latest_append_of_ne hjk]
    exact h.known j s (hrest j s hjk hj)

theorem continues_of_state (h : Journals log state) {k : K} {before after : S}
    (hk : state k = some before) : Report.Continues log ⟨k, some before, after⟩ :=
  h.known k before hk

end Journals

end Kiomq.Foundations
