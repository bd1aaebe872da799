import Kiomq.Redis.Server
import Mathlib.Data.Char
import Mathlib.Data.List.Lex
import Mathlib.Data.List.Sort
import Mathlib.Data.Prod.Lex

/-!
# Ranges of lists and sorted sets

The commands that read a part of a list or of a sorted set, by positions or by scores, and the
one that deletes by scores. Positions are inclusive and may count from the end. The entries of
a sorted set come by score, and entries with one score by the texts of their members. A score
is an integer, where the server has a double.
-/

namespace Kiomq.Redis

variable {V M : Type}

def zKey (e : ℕ × ℤ) : ℤ ×ₗ List Char := toLex (e.2, Nat.toDigits 10 e.1)

/-- The part of a list from one position to another. A negative position counts from the
end. -/
def slice {α : Type} (l : List α) (start stop : ℤ) : List α :=
  let start := if start < 0 then start + l.length else start
  let stop := if stop < 0 then stop + l.length else stop
  (l.take (stop + 1).toNat).drop start.toNat

/-- One end of a range of scores. -/
inductive ScoreBound
  | unbounded
  | inclusive (score : ℤ)
  | exclusive (score : ℤ)

def ScoreBound.below : ScoreBound → ℤ → Bool
  | unbounded, _ => true
  | inclusive bound, score => decide (bound ≤ score)
  | exclusive bound, score => decide (bound < score)

def ScoreBound.above : ScoreBound → ℤ → Bool
  | unbounded, _ => true
  | inclusive bound, score => decide (score ≤ bound)
  | exclusive bound, score => decide (score < bound)

namespace Server

def llen (r : Server V M) (key : Key) : ℕ := (r.lists key).length

def zcard (r : Server V M) (key : Key) : ℕ := (r.zsets key).length

def lrange (r : Server V M) (key : Key) (start stop : ℤ) : List ℕ :=
  slice (r.lists key) start stop

def zsorted (r : Server V M) (key : Key) : List (ℕ × ℤ) :=
  (r.zsets key).insertionSort fun e f => zKey e ≤ zKey f

def zrange (r : Server V M) (key : Key) (start stop : ℤ) : List ℕ :=
  (slice (r.zsorted key) start stop).map Prod.fst

def zrangebyscore (r : Server V M) (key : Key) (min max : ScoreBound) : List ℕ :=
  ((r.zsorted key).filter fun e => min.below e.2 && max.above e.2).map Prod.fst

def zremrangebyscore (r : Server V M) (key : Key) (min max : ScoreBound) : Server V M :=
  { r with
    zsets := Function.update r.zsets key
      ((r.zsets key).filter fun e => !(min.below e.2 && max.above e.2)) }

theorem length_zsorted (r : Server V M) (key : Key) : (r.zsorted key).length = r.zcard key :=
  List.length_insertionSort _ _

theorem zsorted_perm (r : Server V M) (key : Key) : (r.zsorted key).Perm (r.zsets key) :=
  List.perm_insertionSort _ _

theorem pairwise_zsorted (r : Server V M) (key : Key) :
    (r.zsorted key).Pairwise fun e f => zKey e ≤ zKey f := by
  have htrans : IsTrans (ℕ × ℤ) fun e f => zKey e ≤ zKey f := ⟨fun _ _ _ => le_trans⟩
  have htotal : Std.Total fun e f : ℕ × ℤ => zKey e ≤ zKey f := ⟨fun e f => le_total _ _⟩
  exact List.pairwise_insertionSort _ _

theorem zsorted_eq (r : Server V M) {key : Key} {entries : List (ℕ × ℤ)}
    (hentries : entries.Pairwise fun e f => e.2 < f.2) (hperm : (r.zsets key).Perm entries) :
    r.zsorted key = entries := by
  have hsorted : entries.Pairwise fun e f => zKey e ≤ zKey f :=
    hentries.imp fun h => (Prod.Lex.toLex_lt_toLex.mpr (Or.inl h)).le
  have hscores : (entries.map Prod.snd).Nodup := by
    rw [List.nodup_iff_pairwise_ne, List.pairwise_map]
    exact hentries.imp fun h => ne_of_lt h
  have hall := (r.zsorted_perm key).trans hperm
  refine hall.eq_of_pairwise ?_ (r.pairwise_zsorted key) hsorted
  intro e f he hf hle hge
  have hkey : zKey e = zKey f := le_antisymm hle hge
  have hscore : e.2 = f.2 := congrArg (fun x => (ofLex x).1) hkey
  exact List.inj_on_of_nodup_map hscores (hall.mem_iff.mp he) hf hscore

end Server

theorem slice_map {α β : Type} (f : α → β) (l : List α) (start stop : ℤ) :
    (slice l start stop).map f = slice (l.map f) start stop := by
  simp only [slice, List.length_map, List.map_drop, List.map_take]

theorem slice_natCast {α : Type} (l : List α) (start stop : ℕ) :
    slice l start stop = (l.take (stop + 1)).drop start := by
  have hstart : ¬ ((start : ℤ) < 0) := by omega
  have hstop : ¬ ((stop : ℤ) < 0) := by omega
  simp only [slice, if_neg hstart, if_neg hstop]
  rfl

end Kiomq.Redis
