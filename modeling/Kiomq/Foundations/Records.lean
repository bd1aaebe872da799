import Mathlib.Data.List.Basic
import Mathlib.Tactic

/-!
# Records kept as named texts

A record whose fields have types of their own is kept as a list of entries, each of them
the name of a field and a text. The entries represent a record if every text is read as
the value of its field and no field is missing. They are then read as that record in
whatever order they stand, and replacing one entry keeps up with writing one field.
-/

namespace Kiomq.Foundations

/-- The fields of a record, with the names and the readers of their texts. -/
structure RecordFormat (σ κ : Type*) where
  Component : κ → Type*
  get : σ → (k : κ) → Component k
  put : σ → (k : κ) → Component k → σ
  name : κ → String
  ofName : String → Option κ
  read : (k : κ) → List Char → Option (Component k)
  get_put_self : ∀ s k v, get (put s k v) k = v
  get_put_of_ne : ∀ s k v k', k' ≠ k → get (put s k v) k' = get s k'
  ext_get : ∀ s t, (∀ k, get s k = get t k) → s = t
  ofName_name : ∀ k, ofName (name k) = some k

namespace RecordFormat

variable {σ κ : Type*} (F : RecordFormat σ κ)

/-- Set the field of an entry; an unknown name is skipped. -/
def readEntry (s : σ) (entry : String × List Char) : Option σ :=
  match F.ofName entry.1 with
  | some k => (F.read k entry.2).map (F.put s k)
  | none => some s

def readEntries (start : σ) (entries : List (String × List Char)) : Option σ :=
  entries.foldlM F.readEntry start

/-- Every text under a known name can be read. -/
def Readable (entries : List (String × List Char)) : Prop :=
  ∀ e ∈ entries, ∀ k, F.ofName e.1 = some k → (F.read k e.2).isSome = true

structure Represents (entries : List (String × List Char)) (s : σ) : Prop where
  sound : ∀ e ∈ entries, ∃ k, e.1 = F.name k ∧ F.read k e.2 = some (F.get s k)
  complete : ∀ k, ∃ e ∈ entries, e.1 = F.name k

theorem name_injective : Function.Injective F.name := by
  intro k k' h
  have hk := F.ofName_name k
  rw [h, F.ofName_name k'] at hk
  exact (Option.some.inj hk).symm

variable {F}

/-- Entries that are read as fields of `s` bring the record that they are read into closer
to it: each field agrees if it has an entry or agreed before. -/
theorem readEntries_agrees {entries : List (String × List Char)} {s : σ}
    (hsound : ∀ e ∈ entries, ∃ k, e.1 = F.name k ∧ F.read k e.2 = some (F.get s k))
    (start : σ) :
    ∃ t, F.readEntries start entries = some t ∧ ∀ k,
      ((∃ e ∈ entries, e.1 = F.name k) ∨ F.get start k = F.get s k) →
        F.get t k = F.get s k := by
  induction entries generalizing start with
  | nil =>
    refine ⟨start, rfl, fun k hk => ?_⟩
    rcases hk with ⟨e, he, -⟩ | hk
    · exact absurd he List.not_mem_nil
    · exact hk
  | cons e entries ih =>
    obtain ⟨k, hname, hread⟩ := hsound e List.mem_cons_self
    have hrest := fun e' he' => hsound e' (List.mem_cons_of_mem e he')
    obtain ⟨t, ht, hagree⟩ := ih hrest (F.put start k (F.get s k))
    refine ⟨t, ?_, fun k' hk' => ?_⟩
    · have hentry : F.readEntry start e = some (F.put start k (F.get s k)) := by
        rw [readEntry, hname, F.ofName_name]
        simp only [hread, Option.map_some]
      rw [readEntries, List.foldlM_cons, hentry]
      exact ht
    · apply hagree k'
      by_cases hkey : k' = k
      · subst hkey
        exact Or.inr (F.get_put_self start k' _)
      · rcases hk' with ⟨e', he', hname'⟩ | hk'
        · rcases List.mem_cons.mp he' with rfl | he'
          · exact absurd (F.name_injective (hname'.symm.trans hname)) hkey
          · exact Or.inl ⟨e', he', hname'⟩
        · exact Or.inr ((F.get_put_of_ne start k _ k' hkey).trans hk')

theorem isSome_readEntry_iff (s : σ) (e : String × List Char) :
    (F.readEntry s e).isSome = true ↔
      ∀ k, F.ofName e.1 = some k → (F.read k e.2).isSome = true := by
  unfold readEntry
  cases F.ofName e.1 with
  | none => simp
  | some k => simp

theorem isSome_readEntries_iff (start : σ) (entries : List (String × List Char)) :
    (F.readEntries start entries).isSome = true ↔ F.Readable entries := by
  induction entries generalizing start with
  | nil => exact iff_of_true rfl (List.forall_mem_nil _)
  | cons e entries ih =>
    rw [Readable, List.forall_mem_cons, ← isSome_readEntry_iff start e, readEntries,
      List.foldlM_cons]
    cases F.readEntry start e with
    | none => simp
    | some s => exact (ih s).trans (iff_and_self.mpr fun _ => rfl)

/-- A field that no entry names is left as it was. -/
theorem get_readEntries_of_absent {entries : List (String × List Char)} {start t : σ} {k : κ}
    (habsent : ∀ e ∈ entries, F.ofName e.1 ≠ some k)
    (h : F.readEntries start entries = some t) : F.get t k = F.get start k := by
  induction entries generalizing start with
  | nil =>
    obtain rfl := Option.some.inj h
    rfl
  | cons e entries ih =>
    obtain ⟨hname, hrest⟩ := List.forall_mem_cons.mp habsent
    rw [readEntries, List.foldlM_cons] at h
    obtain ⟨s, hs, hread⟩ := Option.bind_eq_some_iff.mp h
    refine (ih hrest hread).trans ?_
    rw [readEntry] at hs
    split at hs
    · next k' hk' =>
      obtain ⟨v, -, rfl⟩ := Option.map_eq_some_iff.mp hs
      exact F.get_put_of_ne start k' v k fun heq => hname (heq ▸ hk')
    · obtain rfl := Option.some.inj hs
      rfl

theorem Represents.readEntries_eq {entries : List (String × List Char)} {s : σ}
    (h : F.Represents entries s) (start : σ) : F.readEntries start entries = some s := by
  obtain ⟨t, ht, hagree⟩ := readEntries_agrees h.sound start
  rw [ht]
  congr 1
  exact F.ext_get t s fun k => hagree k (Or.inl (h.complete k))

theorem Represents.perm {entries entries' : List (String × List Char)} {s : σ}
    (h : F.Represents entries s) (hperm : entries'.Perm entries) : F.Represents entries' s where
  sound := fun e he => h.sound e (hperm.mem_iff.mp he)
  complete := by
    intro k
    obtain ⟨e, he, hname⟩ := h.complete k
    exact ⟨e, hperm.mem_iff.mpr he, hname⟩

theorem Represents.read_eq {entries : List (String × List Char)} {s : σ}
    (h : F.Represents entries s) {e : String × List Char} (he : e ∈ entries) {k : κ}
    (hname : e.1 = F.name k) : F.read k e.2 = some (F.get s k) := by
  obtain ⟨k', hname', hread⟩ := h.sound e he
  obtain rfl := F.name_injective (hname'.symm.trans hname)
  exact hread

theorem represents_map {keys : List κ} (hkeys : ∀ k, k ∈ keys) {s : σ}
    {text : κ → List Char} (hread : ∀ k, F.read k (text k) = some (F.get s k)) :
    F.Represents (keys.map fun k => (F.name k, text k)) s where
  sound := by
    intro e he
    obtain ⟨k, -, rfl⟩ := List.mem_map.mp he
    exact ⟨k, rfl, hread k⟩
  complete := fun k => ⟨_, List.mem_map_of_mem (hkeys k), rfl⟩

theorem Represents.replace {entries : List (String × List Char)} {s : σ}
    (h : F.Represents entries s) {k : κ} {text : List Char} {v : F.Component k}
    (hread : F.read k text = some v) :
    F.Represents (entries.filter (fun e => e.1 ≠ F.name k) ++ [(F.name k, text)])
      (F.put s k v) where
  sound := by
    intro e he
    rcases List.mem_append.mp he with he | he
    · obtain ⟨hmem, hne⟩ := List.mem_filter.mp he
      obtain ⟨k', hname, hread'⟩ := h.sound e hmem
      have hkey : k' ≠ k := by
        rintro rfl
        exact of_decide_eq_true hne hname
      exact ⟨k', hname, by rw [F.get_put_of_ne s k v k' hkey]; exact hread'⟩
    · obtain rfl := List.mem_singleton.mp he
      exact ⟨k, rfl, by rw [F.get_put_self]; exact hread⟩
  complete := by
    intro k'
    by_cases hkey : k' = k
    · subst hkey
      exact ⟨_, List.mem_append_right _ (List.mem_singleton_self _), rfl⟩
    · obtain ⟨e, he, hname⟩ := h.complete k'
      have hne : e.1 ≠ F.name k := fun heq => hkey (F.name_injective (hname.symm.trans heq))
      exact ⟨e, List.mem_append_left _ (List.mem_filter.mpr ⟨he, decide_eq_true hne⟩), hname⟩

end RecordFormat

end Kiomq.Foundations
