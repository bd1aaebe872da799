import Mathlib.Data.List.Basic
import Mathlib.Logic.Function.Basic
import Mathlib.Tactic

/-!
# A Redis server

The commands that a pipeline sends, with their documented effect. Every type of value
has its own keyspace: a key is never used with two types, so no command fails. An
absent list, sorted set, hash or stream is an empty one. The type `V` is that of hash
values and `M` that of published messages.
-/

namespace Kiomq.Redis

abbrev Key := List Char

structure Server (V M : Type) where
  strings : Key → Option ℕ
  lists : Key → List ℕ
  zsets : Key → List (ℕ × ℤ)
  hashes : Key → List (String × V)
  streams : Key → List (List (String × String))
  published : List (Key × M)

inductive Cmd (V M : Type)
  | incr (key : Key) (delta : ℕ)
  | zadd (key : Key) (member : ℕ) (score : ℤ)
  | lpush (key : Key) (element : ℕ)
  | hsetMultiple (key : Key) (fields : List (String × V))
  | publish (channel : Key) (message : M)
  | xadd (key : Key) (items : List (String × String))

variable {V M : Type}

def Cmd.key : Cmd V M → Key
  | incr key _ => key
  | zadd key _ _ => key
  | lpush key _ => key
  | hsetMultiple key _ => key
  | publish channel _ => channel
  | xadd key _ => key

def Cmd.isIncr : Cmd V M → Bool
  | incr _ _ => true
  | _ => false

def Cmd.increments (key : Key) : Cmd V M → Bool
  | incr key' _ => decide (key' = key)
  | _ => false

theorem Cmd.increments_of_isIncr_eq_false {c : Cmd V M} (h : c.isIncr = false) (key : Key) :
    c.increments key = false := by
  cases c with
  | incr key' delta => simp [isIncr] at h
  | zadd _ _ _ | lpush _ _ | hsetMultiple _ _ | publish _ _ | xadd _ _ => rfl

namespace Server

def empty : Server V M := ⟨fun _ => none, fun _ => [], fun _ => [], fun _ => [], fun _ => [], []⟩

def get (r : Server V M) (key : Key) : Option ℕ := r.strings key

def keyExists (r : Server V M) (key : Key) : Bool :=
  (r.strings key).isSome || !(r.lists key).isEmpty || !(r.zsets key).isEmpty ||
    !(r.hashes key).isEmpty || !(r.streams key).isEmpty

/-- A new field value replaces the old one; the other fields stay. -/
def mergeFields (old new : List (String × V)) : List (String × V) :=
  old.filter (fun f => !new.any fun g => g.1 == f.1) ++ new

def lookupField (fields : List (String × V)) (field : String) : Option V :=
  (fields.find? fun f => f.1 = field).map Prod.snd

def hget (r : Server V M) (key : Key) (field : String) : Option V :=
  lookupField (r.hashes key) field

def hexists (r : Server V M) (key : Key) (field : String) : Bool := (r.hget key field).isSome

theorem lookupField_mergeFields (old new : List (String × V)) (field : String) :
    lookupField (mergeFields old new) field =
      (lookupField new field).or (lookupField old field) := by
  unfold lookupField mergeFields
  rw [List.find?_append]
  by_cases hnew : ∃ g ∈ new, g.1 = field
  · obtain ⟨g, hg, hname⟩ := hnew
    have hold : (old.filter fun f => !new.any fun g => g.1 == f.1).find?
        (fun f => decide (f.1 = field)) = none := by
      rw [List.find?_eq_none]
      intro f hf hfield
      have hany := (List.mem_filter.mp hf).2
      simp only [Bool.not_eq_true', List.any_eq_false, beq_iff_eq] at hany
      exact hany g hg (hname.trans (of_decide_eq_true hfield).symm)
    have hsome : (new.find? fun f => decide (f.1 = field)).isSome = true :=
      List.find?_isSome.mpr ⟨g, hg, decide_eq_true hname⟩
    obtain ⟨v, hv⟩ := Option.isSome_iff_exists.mp hsome
    rw [hold, hv]
    rfl
  · have hnone : new.find? (fun f => decide (f.1 = field)) = none := by
      rw [List.find?_eq_none]
      intro g hg hname
      exact hnew ⟨g, hg, of_decide_eq_true hname⟩
    have hold : (old.filter fun f => !new.any fun g => g.1 == f.1).find?
        (fun f => decide (f.1 = field)) = old.find? fun f => decide (f.1 = field) := by
      rw [List.find?_filter]
      congr 1
      funext f
      by_cases hf : f.1 = field
      · have hany : ∀ g ∈ new, g.1 ≠ field := fun g hg hname => hnew ⟨g, hg, hname⟩
        simpa [hf] using hany
      · simp [hf]
    rw [hold, hnone]
    simp

def exec (r : Server V M) : Cmd V M → Server V M
  | .incr key delta =>
    { r with strings := Function.update r.strings key (some ((r.strings key).getD 0 + delta)) }
  | .zadd key member score =>
    { r with
      zsets := Function.update r.zsets key
        ((r.zsets key).filter (fun e => e.1 ≠ member) ++ [(member, score)]) }
  | .lpush key element =>
    { r with lists := Function.update r.lists key (element :: r.lists key) }
  | .hsetMultiple key fields =>
    { r with hashes := Function.update r.hashes key (mergeFields (r.hashes key) fields) }
  | .publish channel message => { r with published := r.published ++ [(channel, message)] }
  | .xadd key items =>
    { r with streams := Function.update r.streams key (r.streams key ++ [items]) }

theorem hget_hsetMultiple (r : Server V M) (key key' : Key) (fields : List (String × V))
    (field : String) :
    (r.exec (.hsetMultiple key fields)).hget key' field =
      if key' = key then (lookupField fields field).or (r.hget key field)
      else r.hget key' field := by
  by_cases hkey : key' = key
  · subst hkey
    simp [hget, exec, lookupField_mergeFields]
  · simp [hget, exec, hkey]

def execAll (r : Server V M) (cmds : List (Cmd V M)) : Server V M := cmds.foldl exec r

theorem execAll_append (r : Server V M) (cs ds : List (Cmd V M)) :
    r.execAll (cs ++ ds) = (r.execAll cs).execAll ds := List.foldl_append

theorem get_exec_incr (r : Server V M) (key key' : Key) (delta : ℕ) :
    (r.exec (.incr key delta)).get key' =
      if key' = key then some ((r.get key).getD 0 + delta) else r.get key' := by
  simp only [exec, get, Function.update_apply]

theorem get_exec_of_not_increments (r : Server V M) {c : Cmd V M} {key : Key}
    (h : c.increments key = false) : (r.exec c).get key = r.get key := by
  cases c with
  | incr key' delta =>
    have hne : key ≠ key' := by
      rintro rfl
      simp [Cmd.increments] at h
    rw [get_exec_incr, if_neg hne]
  | zadd _ _ _ | lpush _ _ | hsetMultiple _ _ | publish _ _ | xadd _ _ => rfl

theorem get_execAll_of_not_incr (r : Server V M) (cmds : List (Cmd V M))
    (h : ∀ c ∈ cmds, c.isIncr = false) (key : Key) : (r.execAll cmds).get key = r.get key := by
  induction cmds generalizing r with
  | nil => rfl
  | cons c cmds ih =>
    have hc := Cmd.increments_of_isIncr_eq_false (h c List.mem_cons_self) key
    rw [execAll, List.foldl_cons]
    exact (ih (r.exec c) fun d hd => h d (List.mem_cons_of_mem _ hd)).trans
      (r.get_exec_of_not_increments hc)

end Server

end Kiomq.Redis
