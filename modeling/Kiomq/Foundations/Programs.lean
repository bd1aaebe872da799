import Mathlib.Tactic

/-!
# Programs over an interface

A program makes calls to an interface and goes on with their answers. It does not know
what is behind the interface. An implementation answers the calls from a state of its own.
A procedure is a program that may fail, and a failure ends it.

One implementation simulates another if related states give the same answer to every
admitted call and stay related. Then a program whose calls are admitted has the same
result on both, and so have the programs of several parties, in any order of their calls.
-/

namespace Kiomq.Foundations

/-- The calls of an interface, with the types of their answers. -/
structure Interface where
  Call : Type
  Answer : Call → Type

inductive Program (I : Interface) (α : Type)
  | done (a : α)
  | call (c : I.Call) (next : I.Answer c → Program I α)

abbrev Implementation (I : Interface) (σ : Type*) := (c : I.Call) → σ → I.Answer c × σ

namespace Program

variable {I : Interface} {α β : Type} {σ τ : Type*}

def bind : Program I α → (α → Program I β) → Program I β
  | done a, f => f a
  | call c next, f => call c fun answer => (next answer).bind f

instance : Monad (Program I) where
  pure := done
  bind := bind

def run (impl : Implementation I σ) : Program I α → σ → α × σ
  | done a, s => (a, s)
  | call c next, s => (next (impl c s).1).run impl (impl c s).2

/-- Every call that the program makes is admitted in the state it is made in. -/
def Admitted (impl : Implementation I σ) (admits : σ → I.Call → Prop) : Program I α → σ → Prop
  | done _, _ => True
  | call c next, s => admits s c ∧ (next (impl c s).1).Admitted impl admits (impl c s).2

theorem run_bind (impl : Implementation I σ) (p : Program I α) (f : α → Program I β) (s : σ) :
    (p.bind f).run impl s = (f (p.run impl s).1).run impl (p.run impl s).2 := by
  induction p generalizing s with
  | done a => rfl
  | call c next ih => exact ih _ _

theorem admitted_bind (impl : Implementation I σ) (admits : σ → I.Call → Prop)
    (p : Program I α) (f : α → Program I β) (s : σ) :
    (p.bind f).Admitted impl admits s ↔
      p.Admitted impl admits s ∧
        (f (p.run impl s).1).Admitted impl admits (p.run impl s).2 := by
  induction p generalizing s with
  | done a => simp [bind, Admitted, run]
  | call c next ih =>
    simp only [bind, Admitted, run, ih]
    exact and_assoc.symm

/-- Every call that the program can make satisfies `ok`, whatever the answers are. -/
def Uses (ok : I.Call → Prop) : Program I α → Prop
  | done _ => True
  | call c next => ok c ∧ ∀ answer, (next answer).Uses ok

theorem Uses.bind {ok : I.Call → Prop} {p : Program I α} {f : α → Program I β} (hp : p.Uses ok)
    (hf : ∀ a, (f a).Uses ok) : (p.bind f).Uses ok := by
  induction p with
  | done a => exact hf a
  | call c next ih => exact ⟨hp.1, fun answer => ih answer (hp.2 answer)⟩

end Program

/-- Related states answer an admitted call alike and stay related. -/
structure Simulates {I : Interface} {σ τ : Type*} (impl : Implementation I σ)
    (impl' : Implementation I τ) (admits : σ → I.Call → Prop) (rel : σ → τ → Prop) : Prop where
  answer : ∀ {s t c}, rel s t → admits s c → (impl' c t).1 = (impl c s).1
  next : ∀ {s t c}, rel s t → admits s c → rel (impl c s).2 (impl' c t).2

theorem Simulates.run_program {I : Interface} {α : Type} {σ τ : Type*}
    {impl : Implementation I σ} {impl' : Implementation I τ} {admits : σ → I.Call → Prop}
    {rel : σ → τ → Prop} (h : Simulates impl impl' admits rel) (p : Program I α) {s : σ} {t : τ}
    (hrel : rel s t) (hp : p.Admitted impl admits s) :
    (p.run impl' t).1 = (p.run impl s).1 ∧ rel (p.run impl s).2 (p.run impl' t).2 := by
  induction p generalizing s t with
  | done a => exact ⟨rfl, hrel⟩
  | call c next ih =>
    simp only [Program.run, h.answer hrel hp.1]
    exact ih _ (h.next hrel hp.1) hp.2

/-! ### Procedures -/

/-- A program that ends with a result or an error of type `ε`. -/
abbrev Procedure (I : Interface) (ε : Type) := ExceptT ε (Program I)

namespace Procedure

variable {I : Interface} {ε α β : Type} {σ : Type*}

def call (c : I.Call) : Procedure I ε (I.Answer c) := ExceptT.lift (Program.call c .done)

/-- A call whose answer may be an error, after which nothing follows. -/
def attempt (c : I.Call) (read : I.Answer c → Except ε α) : Procedure I ε α :=
  ExceptT.mk (Program.call c fun answer => .done (read answer))

def exec (impl : Implementation I σ) (p : Procedure I ε α) (s : σ) : Except ε α × σ :=
  Program.run impl (ExceptT.run p) s

def Admitted (impl : Implementation I σ) (admits : σ → I.Call → Prop) (p : Procedure I ε α)
    (s : σ) : Prop :=
  Program.Admitted impl admits (ExceptT.run p) s

variable (impl : Implementation I σ) (admits : σ → I.Call → Prop)

@[simp] theorem exec_pure (a : α) (s : σ) :
    exec impl (pure a : Procedure I ε α) s = (.ok a, s) := rfl

@[simp] theorem exec_throw (e : ε) (s : σ) :
    exec impl (throw e : Procedure I ε α) s = (.error e, s) := rfl

@[simp] theorem exec_call (c : I.Call) (s : σ) :
    exec impl (call c : Procedure I ε (I.Answer c)) s = (.ok (impl c s).1, (impl c s).2) := rfl

@[simp] theorem exec_attempt (c : I.Call) (read : I.Answer c → Except ε α) (s : σ) :
    exec impl (attempt c read) s = (read (impl c s).1, (impl c s).2) := rfl

theorem exec_bind (p : Procedure I ε α) (f : α → Procedure I ε β) (s : σ) :
    exec impl (p >>= f) s =
      match exec impl p s with
      | (.ok a, t) => exec impl (f a) t
      | (.error e, t) => (.error e, t) := by
  have hrun := Program.run_bind impl (ExceptT.run p) (ExceptT.bindCont f) s
  refine hrun.trans ?_
  change _ = match Program.run impl (ExceptT.run p) s with
    | (.ok a, t) => exec impl (f a) t
    | (.error e, t) => (.error e, t)
  rcases Program.run impl (ExceptT.run p) s with ⟨a | e, t⟩ <;> rfl

theorem exec_bind_of_ok {p : Procedure I ε α} {s t : σ} {a : α} (h : exec impl p s = (.ok a, t))
    (f : α → Procedure I ε β) : exec impl (p >>= f) s = exec impl (f a) t := by
  rw [exec_bind, h]

theorem exec_bind_of_error {p : Procedure I ε α} {s t : σ} {e : ε}
    (h : exec impl p s = (.error e, t)) (f : α → Procedure I ε β) :
    exec impl (p >>= f) s = (.error e, t) := by
  rw [exec_bind, h]

@[simp] theorem admitted_pure (a : α) (s : σ) :
    Admitted impl admits (pure a : Procedure I ε α) s := trivial

@[simp] theorem admitted_throw (e : ε) (s : σ) :
    Admitted impl admits (throw e : Procedure I ε α) s := trivial

@[simp] theorem admitted_call (c : I.Call) (s : σ) :
    Admitted impl admits (call c : Procedure I ε (I.Answer c)) s ↔ admits s c :=
  iff_of_eq (and_true _)

@[simp] theorem admitted_attempt (c : I.Call) (read : I.Answer c → Except ε α) (s : σ) :
    Admitted impl admits (attempt c read) s ↔ admits s c :=
  iff_of_eq (and_true _)

theorem admitted_bind (p : Procedure I ε α) (f : α → Procedure I ε β) (s : σ) :
    Admitted impl admits (p >>= f) s ↔
      Admitted impl admits p s ∧
        ∀ a, (exec impl p s).1 = .ok a → Admitted impl admits (f a) (exec impl p s).2 := by
  have hbind := Program.admitted_bind impl admits (ExceptT.run p) (ExceptT.bindCont f) s
  refine hbind.trans (and_congr_right fun _ => ?_)
  unfold exec
  generalize Program.run impl (ExceptT.run p) s = out
  rcases out with ⟨e | a, t⟩
  · refine ⟨fun _ a h => ?_, fun _ => trivial⟩
    cases h
  · refine ⟨fun h b hb => ?_, fun h => h a rfl⟩
    obtain rfl := Except.ok.inj hb
    exact h

theorem admitted_call_bind (c : I.Call) (f : I.Answer c → Procedure I ε β) (s : σ) :
    Admitted impl admits (call c >>= f) s ↔
      admits s c ∧ Admitted impl admits (f (impl c s).1) (impl c s).2 := by
  rw [admitted_bind, admitted_call, exec_call]
  refine and_congr_right fun _ => ⟨fun h => h _ rfl, fun h a ha => ?_⟩
  obtain rfl := Except.ok.inj ha
  exact h

theorem admitted_attempt_bind (c : I.Call) (read : I.Answer c → Except ε α)
    (f : α → Procedure I ε β) (s : σ) :
    Admitted impl admits (attempt c read >>= f) s ↔
      admits s c ∧
        ∀ a, read (impl c s).1 = .ok a → Admitted impl admits (f a) (impl c s).2 := by
  rw [admitted_bind, admitted_attempt, exec_attempt]

def Uses (ok : I.Call → Prop) (p : Procedure I ε α) : Prop := Program.Uses ok (ExceptT.run p)

variable {ok : I.Call → Prop}

@[simp] theorem uses_pure (a : α) : Uses ok (pure a : Procedure I ε α) := trivial

@[simp] theorem uses_throw (e : ε) : Uses ok (throw e : Procedure I ε α) := trivial

@[simp] theorem uses_call {c : I.Call} :
    Uses ok (call c : Procedure I ε (I.Answer c)) ↔ ok c :=
  ⟨fun h => h.1, fun h => ⟨h, fun _ => trivial⟩⟩

@[simp] theorem uses_attempt {c : I.Call} {read : I.Answer c → Except ε α} :
    Uses ok (attempt c read) ↔ ok c :=
  ⟨fun h => h.1, fun h => ⟨h, fun _ => trivial⟩⟩

theorem Uses.bind {p : Procedure I ε α} {f : α → Procedure I ε β} (hp : Uses ok p)
    (hf : ∀ a, Uses ok (f a)) : Uses ok (p >>= f) := by
  refine Program.Uses.bind hp fun result => ?_
  cases result with
  | error e => trivial
  | ok a => exact hf a

end Procedure

theorem Simulates.exec_procedure {I : Interface} {ε α : Type} {σ τ : Type*}
    {impl : Implementation I σ} {impl' : Implementation I τ} {admits : σ → I.Call → Prop}
    {rel : σ → τ → Prop} (h : Simulates impl impl' admits rel) (p : Procedure I ε α) {s : σ}
    {t : τ} (hrel : rel s t) (hp : p.Admitted impl admits s) :
    (p.exec impl' t).1 = (p.exec impl s).1 ∧ rel (p.exec impl s).2 (p.exec impl' t).2 :=
  h.run_program (ExceptT.run p) hrel hp

/-! ### Parties -/

/-- One call of a program. A program that has ended makes none. -/
def Program.advance {I : Interface} {α : Type} {σ : Type*} (impl : Implementation I σ) :
    Program I α → σ → Program I α × σ
  | done a, s => (done a, s)
  | call c next, s => (next (impl c s).1, (impl c s).2)

/-- The next call of the program is admitted. -/
def Program.AdmittedNext {I : Interface} {α : Type} {σ : Type*} (admits : σ → I.Call → Prop) :
    Program I α → σ → Prop
  | done _, _ => True
  | call c _, s => admits s c

structure Pool (I : Interface) {ι : Type*} (α : ι → Type) (σ : Type*) where
  programs : (i : ι) → Program I (α i)
  state : σ

namespace Pool

variable {I : Interface} {ι κ : Type*} [DecidableEq ι] {α : ι → Type} {σ τ : Type*}

/-- A party makes its next call. The implementation depends on the circumstances of the turn,
such as the time. -/
def turn (impl : κ → Implementation I σ) (p : Pool I α σ) (t : κ × ι) : Pool I α σ :=
  let out := (p.programs t.2).advance (impl t.1) p.state
  ⟨Function.update p.programs t.2 out.1, out.2⟩

def play (impl : κ → Implementation I σ) (p : Pool I α σ) (turns : List (κ × ι)) : Pool I α σ :=
  turns.foldl (turn impl) p

/-- Every call is admitted in the state in which its turn comes. -/
def Admitted (impl : κ → Implementation I σ) (admits : κ → σ → I.Call → Prop) :
    Pool I α σ → List (κ × ι) → Prop
  | _, [] => True
  | p, t :: turns =>
    (p.programs t.2).AdmittedNext (admits t.1) p.state ∧ Admitted impl admits (p.turn impl t) turns

def Ordered (time : κ → ℕ) : ℕ → List (κ × ι) → Prop
  | _, [] => True
  | now, t :: turns => now ≤ time t.1 ∧ Ordered time (time t.1) turns

variable {impl : κ → Implementation I σ} {impl' : κ → Implementation I τ}
  {admits : κ → σ → I.Call → Prop} {time : κ → ℕ} {rel : ℕ → σ → τ → Prop}

theorem play_keeps {Inv : σ → Prop} {ok : I.Call → Prop}
    (hcall : ∀ k c s, ok c → Inv s → Inv (impl k c s).2) {p : Pool I α σ}
    (huses : ∀ i, (p.programs i).Uses ok) (hs : Inv p.state) (turns : List (κ × ι)) :
    Inv (p.play impl turns).state := by
  induction turns generalizing p with
  | nil => exact hs
  | cons t turns ih =>
    have hnext : ((p.programs t.2).advance (impl t.1) p.state).1.Uses ok ∧
        Inv ((p.programs t.2).advance (impl t.1) p.state).2 := by
      have huse := huses t.2
      cases hp : p.programs t.2 with
      | done a => exact ⟨trivial, hs⟩
      | call c next =>
        rw [hp] at huse
        exact ⟨huse.2 _, hcall t.1 c p.state huse.1 hs⟩
    refine ih (fun i => ?_) hnext.2
    simp only [turn]
    by_cases hi : i = t.2
    · subst hi
      rw [Function.update_self]
      exact hnext.1
    · rw [Function.update_of_ne hi]
      exact huses i

end Pool

end Kiomq.Foundations
