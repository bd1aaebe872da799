import Kiomq.Foundations.Ledger

/-!
# Who holds a job

The places of a queue seen from one job id: how many copies lie on the shelves
(wait, paused, prioritized, delayed), in the active list and in timers under way, how
many tasks run for it, and what its record and its entry among the jobs in progress
say. The invariant is that of a ledger whose tokens are the ids and whose budget is
the number of attempts, with the facts that make the retry decision agree with it.
Each lemma below is one kind of change that keeps the invariant, and shows it to be a
sequence of ledger moves.
-/

namespace Kiomq

open Foundations

/-- What the argument reads of a job record. -/
structure RecordView where
  working : Bool
  spent : ℕ
  attempts : ℕ
  selfId : Option ℕ

def RecordView.account (r : RecordView) : Account := ⟨r.spent, max 1 r.attempts⟩

structure Custody where
  shelved : ℕ → ℕ
  active : ℕ → ℕ
  outside : ℕ → ℕ
  tasks : ℕ → ℕ
  record : ℕ → Option RecordView
  entry : ℕ → Option ℕ
  lastId : ℕ

namespace Custody

def total (K : Custody) (i : ℕ) : ℕ := K.shelved i + K.active i + K.outside i

def ledger (K : Custody) : Ledger ℕ :=
  { held := K.total, account := fun i => (K.record i).map RecordView.account }

structure Inv (K : Custody) : Prop where
  sound : K.ledger.Sound
  fresh : ∀ i, K.lastId < i → K.total i = 0 ∧ K.record i = none ∧ K.entry i = none
  working : ∀ i r, K.active i ≠ 0 → K.record i = some r → r.working = true
  tasks_le : ∀ i, K.tasks i ≤ K.active i
  budget : ∀ i n r, K.entry i = some n → K.record i = some r → n = r.attempts
  selfId : ∀ i r, K.record i = some r → r.selfId = some i

def Tracks (K K' : Custody) : Prop := Inv K' ∧ Ledger.Moves K.ledger K'.ledger

theorem Inv.refl {K : Custody} (h : Inv K) : Tracks K K := ⟨h, .refl⟩

theorem Tracks.trans {K K' K'' : Custody} (h : Tracks K K') (h' : Inv K' → Tracks K' K'') :
    Tracks K K'' :=
  ⟨(h' h.1).1, h.2.trans (h' h.1).2⟩

variable {K K' : Custody}

theorem Inv.total_le_one (h : Inv K) (i : ℕ) : K.total i ≤ 1 := (h.sound i).1

theorem Inv.spent_le (h : Inv K) {i : ℕ} {r : RecordView} (hr : K.record i = some r) :
    r.spent + K.total i ≤ max 1 r.attempts :=
  (h.sound i).2 r.account (by simp [ledger, hr])

theorem Inv.le_lastId (h : Inv K) {i : ℕ} (hi : K.total i ≠ 0) : i ≤ K.lastId := by
  by_contra hlt
  exact hi (h.fresh i (by omega)).1

theorem moves_of_le {L M L' : Ledger ℕ} (hm : Ledger.Moves L M)
    (hacc : L'.account = M.account) (hle : ∀ i, L'.held i ≤ M.held i) : Ledger.Moves L L' := by
  have hd : Ledger.Move M { M with held := L'.held } := .drop M L'.held hle
  have he : ({ M with held := L'.held } : Ledger ℕ) = L' := by
    ext i
    · rfl
    · simp [hacc]
  exact hm.tail (he ▸ hd)

theorem Inv.shrink (h : Inv K) (htot : ∀ i, K'.total i ≤ K.total i)
    (hact : ∀ i, K'.active i = K.active i) (htask : ∀ i, K'.tasks i ≤ K.tasks i)
    (hrec : ∀ i, K'.record i = K.record i ∨ K'.record i = none)
    (hent : ∀ i n, K'.entry i = some n → K.entry i = some n)
    (hid : K.lastId ≤ K'.lastId) : Tracks K K' := by
  have hold : ∀ i r, K'.record i = some r → K.record i = some r := by
    intro i r hr
    rcases hrec i with hi | hi
    · exact hi ▸ hr
    · simp [hi] at hr
  have hmove : Ledger.Moves K.ledger K'.ledger := by
    have hclose : Ledger.Move K.ledger { K.ledger with account := K'.ledger.account } := by
      apply Ledger.Move.close
      intro i
      rcases hrec i with hi | hi
      · exact Or.inl (by simp [ledger, hi])
      · exact Or.inr (by simp [ledger, hi])
    exact moves_of_le (.single hclose) rfl htot
  refine ⟨⟨hmove.sound h.sound, ?_, ?_, ?_, ?_, ?_⟩, hmove⟩
  · intro i hi
    obtain ⟨h0, hr, he⟩ := h.fresh i (by omega)
    refine ⟨Nat.le_zero.mp (h0 ▸ htot i), ?_, ?_⟩
    · exact Option.eq_none_iff_forall_ne_some.mpr fun r hr' => by simp [hold i r hr'] at hr
    · exact Option.eq_none_iff_forall_ne_some.mpr fun n hn => by simp [hent i n hn] at he
  · intro i r hi hr
    exact h.working i r (hact i ▸ hi) (hold i r hr)
  · intro i
    exact (htask i).trans (hact i ▸ h.tasks_le i)
  · intro i n r he hr
    exact h.budget i n r (hent i n he) (hold i r hr)
  · intro i r hr
    exact h.selfId i r (hold i r hr)

theorem total_le_update {i : ℕ} (h0 : K.total i = 0)
    (htot : ∀ j, K'.total j ≤ K.total j + if j = i then 1 else 0) (j : ℕ) :
    K'.total j ≤ Function.update K.total i 1 j := by
  have hj := htot j
  by_cases hji : j = i
  · subst hji
    rwa [if_pos rfl, h0, Nat.zero_add, ← Function.update_self j 1 K.total] at hj
  · rwa [if_neg hji, Nat.add_zero, ← Function.update_of_ne hji 1 K.total] at hj

theorem Inv.regrant (h : Inv K) {i : ℕ} {r : RecordView} (hr : K.record i = some r)
    (hlt : r.spent < r.attempts) (h0 : K.total i = 0)
    (htot : ∀ j, K'.total j ≤ K.total j + if j = i then 1 else 0)
    (hact : ∀ j, K'.active j = K.active j) (htask : ∀ j, K'.tasks j ≤ K.tasks j)
    (hrec : K'.record = K.record) (hent : K'.entry = K.entry) (hid : K'.lastId = K.lastId) :
    Tracks K K' := by
  have hmove : Ledger.Moves K.ledger K'.ledger := by
    have hgrant : Ledger.Move K.ledger { K.ledger with held := Function.update K.total i 1 } := by
      refine Ledger.Move.grant K.ledger i r.account h0 (by simp [ledger, hr]) ?_
      exact lt_of_lt_of_le hlt (le_max_right 1 r.attempts)
    exact moves_of_le (.single hgrant) (by simp [ledger, hrec]) (total_le_update h0 htot)
  have hi : i ≤ K.lastId := by
    by_contra hlast
    simp [(h.fresh i (by omega)).2.1] at hr
  refine ⟨⟨hmove.sound h.sound, ?_, ?_, ?_, ?_, ?_⟩, hmove⟩
  · intro j hj
    rw [hid] at hj
    have hji : j ≠ i := by omega
    have hle := htot j
    rw [(h.fresh j hj).1, if_neg hji] at hle
    rw [hrec, hent]
    exact ⟨by omega, (h.fresh j hj).2⟩
  · intro j r' hj hr'
    exact h.working j r' (hact j ▸ hj) (hrec ▸ hr')
  · intro j
    exact (htask j).trans (hact j ▸ h.tasks_le j)
  · intro j n r' he hr'
    exact h.budget j n r' (hent ▸ he) (hrec ▸ hr')
  · intro j r' hr'
    exact h.selfId j r' (hrec ▸ hr')

theorem Inv.enlist (h : Inv K) {i : ℕ} {r : RecordView} (hi : K.lastId < i) (hspent : r.spent = 0)
    (hself : r.selfId = some i)
    (htot : ∀ j, K'.total j ≤ K.total j + if j = i then 1 else 0)
    (hact : ∀ j, K'.active j = K.active j) (htask : ∀ j, K'.tasks j ≤ K.tasks j)
    (hrec : K'.record = Function.update K.record i (some r)) (hent : K'.entry = K.entry)
    (hid : i ≤ K'.lastId) : Tracks K K' := by
  obtain ⟨h0, -, he0⟩ := h.fresh i hi
  have hmove : Ledger.Moves K.ledger K'.ledger := by
    have hreg := Ledger.Move.register K.ledger i (max 1 r.attempts) (by omega) h0
    have hgrant := Ledger.Move.grant
      { K.ledger with account := Function.update K.ledger.account i (some ⟨0, max 1 r.attempts⟩) }
      i ⟨0, max 1 r.attempts⟩ h0 (by simp) (by simp)
    refine moves_of_le ((Relation.ReflTransGen.single hreg).tail hgrant) ?_
      (total_le_update h0 htot)
    funext j
    by_cases hj : j = i
    · subst hj
      simp [ledger, hrec, RecordView.account, hspent]
    · simp [ledger, hrec, hj]
  have hother : ∀ j r', j ≠ i → K'.record j = some r' → K.record j = some r' := by
    intro j r' hj hr'
    simpa [hrec, hj] using hr'
  have hact0 : K.active i = 0 := by
    unfold total at h0
    omega
  refine ⟨⟨hmove.sound h.sound, ?_, ?_, ?_, ?_, ?_⟩, hmove⟩
  · intro j hj
    have hji : j ≠ i := by omega
    obtain ⟨hj0, hjr, hje⟩ := h.fresh j (by omega)
    have hle := htot j
    rw [hj0, if_neg hji] at hle
    exact ⟨by omega, by simpa [hrec, hji] using hjr, hent ▸ hje⟩
  · intro j r' hj hr'
    by_cases hji : j = i
    · subst hji
      exact absurd ((hact j).trans hact0) hj
    · exact h.working j r' (hact j ▸ hj) (hother j r' hji hr')
  · intro j
    exact (htask j).trans (hact j ▸ h.tasks_le j)
  · intro j n r' he hr'
    by_cases hji : j = i
    · subst hji
      rw [hent, he0] at he
      simp at he
    · exact h.budget j n r' (hent ▸ he) (hother j r' hji hr')
  · intro j r' hr'
    by_cases hji : j = i
    · subst hji
      obtain rfl : r = r' := by simpa [hrec] using hr'
      exact hself
    · exact h.selfId j r' (hother j r' hji hr')

theorem Inv.activate (h : Inv K) {i : ℕ} (hi : K.total i ≠ 0)
    (htot : ∀ j, K'.total j ≤ K.total j)
    (hact : ∀ j, j ≠ i → K'.active j = K.active j) (htask : ∀ j, K'.tasks j ≤ K'.active j)
    (hrec : K'.record =
      Function.update K.record i ((K.record i).map fun r => { r with working := true }))
    (hent : ∀ j n, K'.entry j = some n → K.entry j = some n ∨
      (j = i ∧ ∀ r, K.record i = some r → n = r.attempts))
    (hid : K'.lastId = K.lastId) : Tracks K K' := by
  have hmove : Ledger.Moves K.ledger K'.ledger := by
    refine moves_of_le .refl ?_ htot
    funext j
    by_cases hj : j = i
    · subst hj
      cases hr : K.record j <;> simp [ledger, hrec, RecordView.account, hr]
    · simp [ledger, hrec, hj]
  have hcases : ∀ j r', K'.record j = some r' → ∃ r, K.record j = some r ∧
      r'.attempts = r.attempts ∧ r'.selfId = r.selfId ∧
      r'.working = if j = i then true else r.working := by
    intro j r' hr'
    by_cases hj : j = i
    · subst hj
      rw [hrec, Function.update_self] at hr'
      obtain ⟨r, hr, rfl⟩ := Option.map_eq_some_iff.mp hr'
      exact ⟨r, hr, rfl, rfl, by simp⟩
    · rw [hrec, Function.update_of_ne hj] at hr'
      exact ⟨r', hr', rfl, rfl, by simp [hj]⟩
  refine ⟨⟨hmove.sound h.sound, ?_, ?_, htask, ?_, ?_⟩, hmove⟩
  · intro j hj
    rw [hid] at hj
    have hji : j ≠ i := by
      have := h.le_lastId hi
      omega
    obtain ⟨h0, hr, he⟩ := h.fresh j hj
    refine ⟨Nat.le_zero.mp (h0 ▸ htot j), by simpa [hrec, hji] using hr, ?_⟩
    refine Option.eq_none_iff_forall_ne_some.mpr fun n hn => ?_
    rcases hent j n hn with hn | ⟨hn, -⟩
    · simp [hn] at he
    · exact hji hn
  · intro j r' hj hr'
    obtain ⟨r, hr, -, -, hw⟩ := hcases j r' hr'
    by_cases hji : j = i
    · simp [hw, hji]
    · rw [hw, if_neg hji]
      exact h.working j r (hact j hji ▸ hj) hr
  · intro j n r' he hr'
    obtain ⟨r, hr, ha, -, -⟩ := hcases j r' hr'
    rw [ha]
    rcases hent j n he with he | ⟨rfl, hn⟩
    · exact h.budget j n r he hr
    · exact hn r hr
  · intro j r' hr'
    obtain ⟨r, hr, -, hs, -⟩ := hcases j r' hr'
    exact hs ▸ h.selfId j r hr

/-- A held job is finished: its copy is gone and one attempt is charged. -/
theorem Inv.spend (h : Inv K) {i : ℕ} {r r' : RecordView} (hr : K.record i = some r)
    (hi : K.total i ≠ 0) (hi' : K'.total i = 0) (htot : ∀ j, j ≠ i → K'.total j ≤ K.total j)
    (hact : ∀ j, j ≠ i → K'.active j = K.active j) (htask : ∀ j, K'.tasks j ≤ K'.active j)
    (hrec : K'.record = Function.update K.record i (some r'))
    (hspent : r'.spent = r.spent + 1) (hatt : r'.attempts = r.attempts)
    (hself : r'.selfId = r.selfId) (hent : K'.entry = K.entry) (hid : K'.lastId = K.lastId) :
    Tracks K K' := by
  have hmove : Ledger.Moves K.ledger K'.ledger := by
    have hspend := Ledger.Move.spend K.ledger i r.account (r.spent + 1) hi
      (by simp [ledger, hr]) le_rfl
    refine moves_of_le (.single hspend) ?_ ?_
    · funext j
      by_cases hj : j = i
      · subst hj
        simp [ledger, hrec, RecordView.account, hspent, hatt]
      · simp [ledger, hrec, hj]
    · intro j
      by_cases hj : j = i
      · subst hj
        simp [ledger, hi']
      · simpa [ledger, hj] using htot j hj
  have hcases : ∀ j s', K'.record j = some s' → ∃ s, K.record j = some s ∧
      s'.attempts = s.attempts ∧ s'.selfId = s.selfId ∧ (j ≠ i → s' = s) := by
    intro j s' hs'
    by_cases hj : j = i
    · subst hj
      obtain rfl : r' = s' := by simpa [hrec] using hs'
      exact ⟨r, hr, hatt, hself, fun hne => absurd rfl hne⟩
    · rw [hrec, Function.update_of_ne hj] at hs'
      exact ⟨s', hs', rfl, rfl, fun _ => rfl⟩
  refine ⟨⟨hmove.sound h.sound, ?_, ?_, htask, ?_, ?_⟩, hmove⟩
  · intro j hj
    rw [hid] at hj
    have hji : j ≠ i := by
      have := h.le_lastId hi
      omega
    obtain ⟨h0, hr0, he⟩ := h.fresh j hj
    exact ⟨Nat.le_zero.mp (h0 ▸ htot j hji), by simpa [hrec, hji] using hr0, hent ▸ he⟩
  · intro j s' hj hs'
    by_cases hji : j = i
    · subst hji
      unfold total at hi'
      omega
    · obtain ⟨s, hs, -, -, heq⟩ := hcases j s' hs'
      exact heq hji ▸ h.working j s (hact j hji ▸ hj) hs
  · intro j n s' he hs'
    obtain ⟨s, hs, ha, -, -⟩ := hcases j s' hs'
    exact ha ▸ h.budget j n s (hent ▸ he) hs
  · intro j s' hs'
    obtain ⟨s, hs, -, hsf, -⟩ := hcases j s' hs'
    exact hsf ▸ h.selfId j s hs

end Custody

end Kiomq
