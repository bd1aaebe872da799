import Kiomq.Foundations.Decimal
import Kiomq.Redis.Insertion

/-!
# The keys of the Redis layout

Writers build their keys in `prepare_for_insert`, readers in `to_collection_name`. The
readers lowercase the whole key. The writers do so for the wait, paused and prioritized
collections only, so that the two agree just if lowercasing leaves the name of the
queue as it is.
-/

namespace Kiomq

open Foundations Redis InMemoryStore

variable {D R P V : Type}

/-- The keys that a new job is written to are those that readers use. -/
def KeysAgree (T : CaseTable) (keyPrefix name : String) (id : ℕ) (isPaused : Bool) : Prop :=
  let queueName := keyPrefix ++ ":" ++ name
  jobKey queueName id = (CollectionSuffix.job id).toCollectionName T keyPrefix name ∧
    delayedKey queueName = CollectionSuffix.delayed.toCollectionName T keyPrefix name ∧
    prioritizedKey T queueName = CollectionSuffix.prioritized.toCollectionName T keyPrefix name ∧
    waitingKey T queueName isPaused =
      (if isPaused then CollectionSuffix.paused else .wait).toCollectionName T keyPrefix name ∧
    eventsKeys queueName = CollectionSuffix.events.toCollectionName T keyPrefix name

theorem key_prepareForInsert {T : CaseTable} {pairs : Job D R P → List (String × V)}
    {queueName : String} {eventMode : QueueEventMode} {isPaused : Bool} {id priorCounter : ℕ}
    {opts : JobOptions} {job : Job D R P} {name : String} {now : Dt} {p : Prepared D R P V}
    (h : prepareForInsert T pairs queueName eventMode isPaused id priorCounter opts job name now =
      .ok p) :
    ∀ c ∈ p.commands, c.key ∈ [jobKey queueName id, delayedKey queueName,
      prioritizedKey T queueName, waitingKey T queueName isPaused, eventsKeys queueName] := by
  intro c hc
  rcases mem_commands_cases h hc with ⟨_, rfl⟩ | ⟨_, rfl⟩ | rfl | rfl | ⟨_, rfl⟩
  · simp [Cmd.key]
  · simp [Cmd.key]
  · simp [Cmd.key]
  · simp [Cmd.key]
  · cases eventMode <;> simp [Cmd.key, reportCommand]

theorem digit_ascii {c : Char} (h : c.isDigit = true) : c.toNat < 128 ∧ c.toLower = c := by
  simp only [Char.isDigit, Bool.and_eq_true, decide_eq_true_eq] at h
  obtain ⟨hlow, hhigh⟩ := h
  have hval : c.toNat ≤ 57 := hhigh
  constructor
  · omega
  · unfold Char.toLower
    rw [dif_neg]
    rintro ⟨hA, -⟩
    have : 65 ≤ c.toNat := hA
    omega

theorem digits_ascii (n : ℕ) :
    isAscii (':' :: Nat.toDigits 10 n) = true ∧
      (':' :: Nat.toDigits 10 n).map Char.toLower = ':' :: Nat.toDigits 10 n := by
  have hdigit : ∀ c ∈ Nat.toDigits 10 n, c.toNat < 128 ∧ c.toLower = c := fun c hc =>
    digit_ascii (Nat.isDigit_of_mem_toDigits (by decide) (by decide) hc)
  constructor
  · rw [isAscii_cons, isAscii, List.all_eq_true]
    exact ⟨by decide, fun c hc => decide_eq_true (hdigit c hc).1⟩
  · rw [List.map_cons, List.map_congr_left (fun c hc => (hdigit c hc).2), List.map_id']
    rfl

/-- The keys agree just if lowercasing changes no character of the prefix and the name. -/
theorem keysAgree_iff_fixed (T : CaseTable) (keyPrefix name : String) (id : ℕ) (isPaused : Bool) :
    KeysAgree T keyPrefix name id isPaused ↔ T.Fixed (keyPrefix.toList ++ name.toList) := by
  have hcolon : T.Fixed [':'] := by
    intro c hc
    obtain rfl := List.mem_singleton.mp hc
    exact T.lower_ascii ':' (by decide)
  have hname : T.Fixed (keyPrefix ++ ":" ++ name).toList ↔
      T.Fixed (keyPrefix.toList ++ name.toList) := by
    have htext : (keyPrefix ++ ":" ++ name).toList =
        keyPrefix.toList ++ ([':'] ++ name.toList) := by simp
    rw [htext, T.fixed_append, T.fixed_append, T.fixed_append]
    tauto
  have hdelayed : delayedKey (keyPrefix ++ ":" ++ name) =
      CollectionSuffix.delayed.toCollectionName T keyPrefix name ↔
      T.Fixed (keyPrefix ++ ":" ++ name).toList := by
    rw [CollectionSuffix.toCollectionName_eq, eq_comm]
    exact T.toLowercase_append_eq_iff _ (by decide)
  constructor
  · rintro ⟨-, h, -, -, -⟩
    exact hname.mp (hdelayed.mp h)
  · intro h
    have hqueue := hname.mpr h
    refine ⟨?_, hdelayed.mpr hqueue, ?_, ?_, ?_⟩
    · rw [CollectionSuffix.toCollectionName_eq]
      obtain ⟨hascii, hlow⟩ := digits_ascii id
      have hlower := (T.toLowercase_append_eq_iff _ hascii).mpr hqueue
      rw [hlow] at hlower
      exact hlower.symm
    · rw [CollectionSuffix.toCollectionName_eq]
      rfl
    · rw [CollectionSuffix.toCollectionName_eq]
      rfl
    · rw [CollectionSuffix.toCollectionName_eq]
      exact ((T.toLowercase_append_eq_iff (t := ':' :: CollectionSuffix.events.display) _
        (by decide)).mpr hqueue).symm

/-- A capital letter in the name: the record is written to a key that no reader uses, and
so is the entry of a delayed job. -/
theorem capital_keys_disagree :
    ¬ KeysAgree .ascii "\x7bkio\x7d" "Orders" 1 false ∧
      jobKey "\x7bkio\x7d:Orders" 1 = "\x7bkio\x7d:Orders:1".toList ∧
      (CollectionSuffix.job 1).toCollectionName .ascii "\x7bkio\x7d" "Orders" =
        "\x7bkio\x7d:orders:1".toList := by
  refine ⟨fun h => ?_, by decide +kernel, by decide +kernel⟩
  have hdelayed := h.2.1
  revert hdelayed
  decide +kernel

/-! ### The key of a job record -/

namespace RedisStore

variable (T : CaseTable) (st : RedisStore)

def recordKey (T : CaseTable) (st : RedisStore) (id : ℕ) : Key :=
  (CollectionSuffix.job id).toCollectionName T st.keyPrefix st.name

theorem recordKey_eq (id : ℕ) :
    st.recordKey T id =
      T.lowerBetween [] (':' :: Nat.toDigits 10 id) st.queueName.toList ++
        ':' :: Nat.toDigits 10 id := by
  obtain ⟨hascii, hlower⟩ := digits_ascii id
  rw [recordKey, CollectionSuffix.toCollectionName_eq]
  exact (T.toLowercase_append_ascii _ hascii).trans (by rw [hlower]; rfl)

theorem recordKey_injective : Function.Injective (st.recordKey T) := by
  intro i j h
  rw [recordKey_eq, recordKey_eq] at h
  exact (append_cons_toDigits_inj (by decide) h).2

theorem jobKey_eq_recordKey_iff (i j : ℕ) :
    jobKey st.queueName i = st.recordKey T j ↔ i = j ∧ T.Fixed st.queueName.toList := by
  rw [recordKey_eq, jobKey]
  constructor
  · intro h
    obtain ⟨hname, rfl⟩ := append_cons_toDigits_inj (by decide) h
    exact ⟨rfl, (T.lowerBetween_eq_self_iff _ _ _).mp hname.symm⟩
  · rintro ⟨rfl, hfixed⟩
    rw [(T.lowerBetween_eq_self_iff _ _ _).mpr hfixed]

end RedisStore

end Kiomq
