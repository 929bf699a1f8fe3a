import Mathlib.Tactic.Common

/-! # Programs over atomic operations

A process that talks to a shared store is a tree of atomic operations: it performs one operation,
reads the answer and goes on. `Prog Op Ans Label Err α` is that tree, with exceptions in `Err`, a
result in `α` and, on every operation, the list of the named code sections (`Label`) the operation
stands in. The operations themselves are left uninterpreted: what an operation does to the store
and what it answers is the business of an `exec` function, and who may interleave with it is the
business of the modules that follow.

Loops are bounded by an iteration budget. A loop that has used its budget up is `stopped`, which is
neither a return nor an exception, so that a statement about every budget covers every finite
prefix of a run of the loop. -/

namespace Program

variable {Op : Type} {Ans : Op → Type} {Label Err : Type} {α β γ σ : Type}

/-- A program: a tree of atomic operations, each with the sections it stands in. -/
inductive Prog (Op : Type) (Ans : Op → Type) (Label Err α : Type) : Type
  /-- The program has returned a result. -/
  | ret (a : α)
  /-- The program has ended with an exception. -/
  | fail (e : Err)
  /-- The program takes no further step: its process died, or an iteration budget ran out. -/
  | stopped
  /-- The program performs one atomic operation and goes on with the answer. -/
  | op (ls : List Label) (o : Op) (next : Ans o → Prog Op Ans Label Err α)

namespace Prog

/-- Sequencing: go on with `f` where the program returns. -/
def bind (f : α → Prog Op Ans Label Err β) : Prog Op Ans Label Err α → Prog Op Ans Label Err β
  | .ret a => f a
  | .fail e => .fail e
  | .stopped => .stopped
  | .op ls o next => .op ls o fun x => (next x).bind f

instance : Monad (Prog Op Ans Label Err) where
  pure := .ret
  bind p f := p.bind f

/-- `pure` returns. -/
@[simp] theorem pure_eq_ret (a : α) : (pure a : Prog Op Ans Label Err α) = .ret a := rfl

/-- What is returned is handed on. -/
@[simp] theorem ret_bind (a : α) (f : α → Prog Op Ans Label Err β) :
    ((Prog.ret a : Prog Op Ans Label Err α) >>= f) = f a := rfl

/-- Nothing follows an exception. -/
@[simp] theorem fail_bind (e : Err) (f : α → Prog Op Ans Label Err β) :
    ((Prog.fail e : Prog Op Ans Label Err α) >>= f) = .fail e := rfl

/-- Nothing follows the end of a process. -/
@[simp] theorem stopped_bind (f : α → Prog Op Ans Label Err β) :
    ((Prog.stopped : Prog Op Ans Label Err α) >>= f) = .stopped := rfl

/-- What follows an operation follows it later. -/
@[simp] theorem op_bind (ls : List Label) (o : Op) (next : Ans o → Prog Op Ans Label Err α)
    (f : α → Prog Op Ans Label Err β) :
    ((Prog.op ls o next) >>= f) = .op ls o fun x => next x >>= f := rfl

/-- Returning the result adds nothing. -/
theorem bind_ret (p : Prog Op Ans Label Err α) : p.bind (fun a => .ret a) = p := by
  induction p with
  | ret a => rfl
  | fail e => rfl
  | stopped => rfl
  | op ls o next ih => simp only [bind, ih]

/-- Sequencing is associative. -/
theorem bind_bind (p : Prog Op Ans Label Err α) (f : α → Prog Op Ans Label Err β)
    (g : β → Prog Op Ans Label Err γ) : (p.bind f).bind g = p.bind fun a => (f a).bind g := by
  induction p with
  | ret a => rfl
  | fail e => rfl
  | stopped => rfl
  | op ls o next ih => simp only [bind, ih]

/-- Programs with `ret` and `bind` form a lawful monad. -/
instance : LawfulMonad (Prog Op Ans Label Err) :=
  LawfulMonad.mk' _ bind_ret (fun _ _ => rfl) bind_bind

/-- Perform one operation outside every section and return its answer. -/
def perform (o : Op) : Prog Op Ans Label Err (Ans o) := .op [] o .ret

/-- Put every operation of a program into the section `l`. -/
def inside (l : Label) : Prog Op Ans Label Err α → Prog Op Ans Label Err α
  | .ret a => .ret a
  | .fail e => .fail e
  | .stopped => .stopped
  | .op ls o next => .op (l :: ls) o fun x => (next x).inside l

/-- `try p finally cleanup`: the clean-up runs after a return and after an exception. -/
def tryFinally :
    Prog Op Ans Label Err α → Prog Op Ans Label Err Unit → Prog Op Ans Label Err α
  | .ret a, cleanup => cleanup >>= fun _ => .ret a
  | .fail e, cleanup => cleanup >>= fun _ => .fail e
  | .stopped, _ => .stopped
  | .op ls o next, cleanup => .op ls o fun x => (next x).tryFinally cleanup

/-- `try p catch handler`: the handler runs where the program ends with an exception. -/
def tryCatch (handler : Err → Prog Op Ans Label Err α) :
    Prog Op Ans Label Err α → Prog Op Ans Label Err α
  | .ret a => .ret a
  | .fail e => handler e
  | .stopped => .stopped
  | .op ls o next => .op ls o fun x => (next x).tryCatch handler

/-- `if` without an alternative. -/
def ifThen (c : Prop) [Decidable c] (p : Prog Op Ans Label Err Unit) : Prog Op Ans Label Err Unit :=
  if c then p else .ret ()

/-- `foreach`: run the body on the elements of a list, in order. -/
def forEach : List α → (α → Prog Op Ans Label Err Unit) → Prog Op Ans Label Err Unit
  | [], _ => .ret ()
  | a :: as, body => body a >>= fun _ => forEach as body

/-- A loop over the images of elements. -/
theorem forEach_map {f : β → α} {bs : List β} {body : α → Prog Op Ans Label Err Unit} :
    forEach (bs.map f) body = forEach bs fun b => body (f b) := by
  induction bs with
  | nil => rfl
  | cons b bs ih => rw [List.map_cons, forEach, forEach, ih]

/-- A loop over two lists, one after the other. -/
theorem forEach_append {as bs : List α} {body : α → Prog Op Ans Label Err Unit} :
    forEach (as ++ bs) body = forEach as body >>= fun _ => forEach bs body := by
  induction as with
  | nil => rfl
  | cons a as ih => rw [List.cons_append, forEach, forEach, ih, bind_assoc]

/-- A loop over pieces is a loop over the whole. -/
theorem forEach_flatten {ls : List (List α)} {body : α → Prog Op Ans Label Err Unit} :
    (forEach ls fun as => forEach as body) = forEach ls.flatten body := by
  induction ls with
  | nil => rfl
  | cons as ls ih => rw [List.flatten_cons, forEach_append, forEach, ih]

/-- Run the body on the elements of a list, in order, and collect the results. -/
def collect : List α → (α → Prog Op Ans Label Err β) → Prog Op Ans Label Err (List β)
  | [], _ => .ret []
  | a :: as, body => body a >>= fun b => collect as body >>= fun bs => .ret (b :: bs)

/-- `foreach` with an accumulator. -/
def fold (body : β → α → Prog Op Ans Label Err β) : β → List α → Prog Op Ans Label Err β
  | b, [] => .ret b
  | b, a :: as => body b a >>= fun b => fold body b as

/-- Run the body on the elements of a list, in order, until one of them yields a result. -/
def firstSome : List α → (α → Prog Op Ans Label Err (Option β)) →
    Prog Op Ans Label Err (Option β)
  | [], _ => .ret none
  | a :: as, body => body a >>= fun
      | some b => .ret (some b)
      | none => firstSome as body

/-- A loop with a state: the body either hands a new state to the next iteration (`Sum.inl`) or
leaves the loop with a result (`Sum.inr`). After `fuel` iterations the program is `stopped`. -/
def iterate : ℕ → (σ → Prog Op Ans Label Err (σ ⊕ α)) → σ → Prog Op Ans Label Err α
  | 0, _, _ => .stopped
  | fuel + 1, body, s => body s >>= fun
      | .inl s' => iterate fuel body s'
      | .inr a => .ret a

/-- The sections of the operation a program performs next. -/
def sections : Prog Op Ans Label Err α → List Label
  | .op ls _ _ => ls
  | _ => []

/-- Whether a program has ended, by a return, an exception or the death of its process. -/
def Ended : Prog Op Ans Label Err α → Prop
  | .op _ _ _ => False
  | _ => True

/-- The sections an operation stands in. -/
@[simp] theorem sections_op (ls : List Label) (o : Op) (next : Ans o → Prog Op Ans Label Err α) :
    (Prog.op ls o next).sections = ls := rfl

/-- A section around a sequence is one around its parts. -/
@[simp] theorem inside_bind (l : Label) (p : Prog Op Ans Label Err α)
    (f : α → Prog Op Ans Label Err β) :
    (p >>= f).inside l = p.inside l >>= fun a => (f a).inside l := by
  induction p with
  | ret a => rfl
  | fail e => rfl
  | stopped => rfl
  | op ls o next ih => simp only [op_bind, inside, ih]

end Prog

/-! ## Operations a program may perform

`Obeys P A p R` is a program logic without a store: whatever the answers allowed by `A` are, every
operation of `p` satisfies `P` and every result satisfies `R`. It is the tool for facts that follow
from the text of a program alone. -/

/-- Under answers allowed by `A`, every operation of the program satisfies `P` and every result
satisfies `R`. -/
def Obeys (P : List Label → Op → Prop) (A : (o : Op) → Ans o → Prop) :
    Prog Op Ans Label Err α → (α → Prop) → Prop
  | .ret a, R => R a
  | .fail _, _ => True
  | .stopped, _ => True
  | .op ls o next, R => P ls o ∧ ∀ x, A o x → Obeys P A (next x) R

namespace Obeys

variable {P P' : List Label → Op → Prop} {A : (o : Op) → Ans o → Prop} {R R' : α → Prop}
  {p : Prog Op Ans Label Err α}

/-- A program that returns obeys where its result does. -/
@[simp] theorem ret_iff {a : α} : Obeys P A (.ret a : Prog Op Ans Label Err α) R ↔ R a := Iff.rfl

/-- A program that throws obeys. -/
@[simp] theorem fail_iff {e : Err} :
    Obeys P A (.fail e : Prog Op Ans Label Err α) R ↔ True := Iff.rfl

/-- A process that has ended obeys. -/
@[simp] theorem stopped_iff : Obeys P A (.stopped : Prog Op Ans Label Err α) R ↔ True := Iff.rfl

/-- An operation obeys where it is allowed and what follows every answer obeys. -/
@[simp] theorem op_iff {ls : List Label} {o : Op} {next : Ans o → Prog Op Ans Label Err α} :
    Obeys P A (.op ls o next) R ↔ P ls o ∧ ∀ x, A o x → Obeys P A (next x) R := Iff.rfl

/-- A weaker demand on operations and results is obeyed too. -/
theorem mono (hP : ∀ ls o, P ls o → P' ls o) (hR : ∀ a, R a → R' a) (h : Obeys P A p R) :
    Obeys P' A p R' := by
  induction p with
  | ret a => exact hR a h
  | fail e => trivial
  | stopped => trivial
  | op ls o next ih => exact ⟨hP ls o h.1, fun x hx => ih x (h.2 x hx)⟩

/-- Fewer answers leave less to be obeyed. -/
theorem answers {A' : (o : Op) → Ans o → Prop} (hA : ∀ o x, A' o x → A o x)
    (h : Obeys P A p R) : Obeys P A' p R := by
  induction p with
  | ret a => exact h
  | fail e => trivial
  | stopped => trivial
  | op ls o next ih => exact ⟨h.1, fun x hx => ih x (h.2 x (hA o x hx))⟩

/-- A weaker demand on the results is obeyed too. -/
theorem weaken (h : Obeys P A p R) (hR : ∀ a, R a → R' a) : Obeys P A p R' :=
  h.mono (fun _ _ hP => hP) hR

/-- What is obeyed may be put together. -/
theorem and (h : Obeys P A p R) (h' : Obeys P' A p R') :
    Obeys (fun ls o => P ls o ∧ P' ls o) A p fun a => R a ∧ R' a := by
  induction p with
  | ret a => exact ⟨h, h'⟩
  | fail e => trivial
  | stopped => trivial
  | op ls o next ih => exact ⟨⟨h.1, h'.1⟩, fun x hx => ih x (h.2 x hx) (h'.2 x hx)⟩

/-- Nothing is forbidden where everything is permitted. -/
theorem of_true (p : Prog Op Ans Label Err α) :
    Obeys (fun _ _ => True) A p fun _ => True := by
  induction p with
  | ret a => trivial
  | fail e => trivial
  | stopped => trivial
  | op ls o next ih => exact ⟨trivial, fun x _ => ih x⟩

/-- Sequencing: the continuation may rely on what is known of the result. -/
theorem bind {f : α → Prog Op Ans Label Err β} {Q : β → Prop} (h : Obeys P A p R)
    (hf : ∀ a, R a → Obeys P A (f a) Q) : Obeys P A (p >>= f) Q := by
  induction p with
  | ret a => exact hf a h
  | fail e => trivial
  | stopped => trivial
  | op ls o next ih => exact ⟨h.1, fun x hx => ih x (h.2 x hx)⟩

/-- One operation on its own. -/
theorem perform {o : Op} {Q : Ans o → Prop} (hP : P [] o) (hQ : ∀ x, A o x → Q x) :
    Obeys P A (Prog.perform o : Prog Op Ans Label Err (Ans o)) Q := ⟨hP, hQ⟩

/-- A program inside a section obeys `P` when it obeys `P` with the section added. -/
theorem inside {l : Label} (h : Obeys (fun ls o => P (l :: ls) o) A p R) :
    Obeys P A (p.inside l) R := by
  induction p with
  | ret a => exact h
  | fail e => trivial
  | stopped => trivial
  | op ls o next ih => exact ⟨h.1, fun x hx => ih x (h.2 x hx)⟩

/-- `try … finally …` obeys what its body and its clean-up obey. -/
theorem tryFinally {cleanup : Prog Op Ans Label Err Unit} (h : Obeys P A p R)
    (hc : Obeys P A cleanup fun _ => True) : Obeys P A (p.tryFinally cleanup) R := by
  induction p with
  | ret a => exact hc.bind fun _ _ => h
  | fail e => exact hc.bind fun _ _ => trivial
  | stopped => trivial
  | op ls o next ih => exact ⟨h.1, fun x hx => ih x (h.2 x hx)⟩

/-- `try … catch …` obeys what its body and its handler obey. -/
theorem tryCatch {handler : Err → Prog Op Ans Label Err α} (h : Obeys P A p R)
    (hc : ∀ e, Obeys P A (handler e) R) : Obeys P A (p.tryCatch handler) R := by
  induction p with
  | ret a => exact h
  | fail e => exact hc e
  | stopped => trivial
  | op ls o next ih => exact ⟨h.1, fun x hx => ih x (h.2 x hx)⟩

/-- A branch obeys what both of its alternatives obey. -/
theorem ite {c : Prop} [Decidable c] {q : Prog Op Ans Label Err α} (h : c → Obeys P A p R)
    (h' : ¬c → Obeys P A q R) : Obeys P A (if c then p else q) R := by
  split
  · exact h ‹c›
  · exact h' ‹¬c›

/-- `if` without an alternative obeys what its body obeys. -/
theorem ifThen {c : Prop} [Decidable c] {p : Prog Op Ans Label Err Unit}
    (h : c → Obeys P A p fun _ => True) : Obeys P A (Prog.ifThen c p) fun _ => True := by
  unfold Prog.ifThen
  split
  · exact h ‹c›
  · trivial

/-- A loop over a list obeys what its body obeys on every element. -/
theorem forEach {as : List α} {body : α → Prog Op Ans Label Err Unit}
    (h : ∀ a ∈ as, Obeys P A (body a) fun _ => True) :
    Obeys P A (Prog.forEach as body) fun _ => True := by
  induction as with
  | nil => trivial
  | cons a as ih =>
      exact (h a List.mem_cons_self).bind fun _ _ =>
        ih fun b hb => h b (List.mem_cons_of_mem a hb)

/-- A collecting loop over a list obeys what its body obeys on every element. -/
theorem collect {as : List α} {body : α → Prog Op Ans Label Err β} {Q : β → Prop}
    (h : ∀ a ∈ as, Obeys P A (body a) Q) :
    Obeys P A (Prog.collect as body) fun bs => ∀ b ∈ bs, Q b := by
  induction as with
  | nil => intro b hb; cases hb
  | cons a as ih =>
      refine (h a List.mem_cons_self).bind fun b hb => ?_
      refine (ih fun c hc => h c (List.mem_cons_of_mem a hc)).bind fun bs hbs => ?_
      intro c hc
      rcases List.mem_cons.mp hc with rfl | hc
      · exact hb
      · exact hbs c hc

/-- A loop with an accumulator obeys what its body obeys on every element. -/
theorem fold {as : List α} {body : β → α → Prog Op Ans Label Err β}
    (h : ∀ b, ∀ a ∈ as, Obeys P A (body b a) fun _ => True) (b : β) :
    Obeys P A (Prog.fold body b as) fun _ => True := by
  induction as generalizing b with
  | nil => trivial
  | cons a as ih =>
      refine (h b a List.mem_cons_self).bind fun b' _ => ?_
      exact ih (fun b a ha => h b a (List.mem_cons_of_mem _ ha)) b'

/-- A searching loop over a list obeys what its body obeys on every element. -/
theorem firstSome {as : List α} {body : α → Prog Op Ans Label Err (Option β)}
    {Q : Option β → Prop} (hnone : Q none) (h : ∀ a ∈ as, Obeys P A (body a) Q) :
    Obeys P A (Prog.firstSome as body) Q := by
  induction as with
  | nil => exact hnone
  | cons a as ih =>
      refine (h a List.mem_cons_self).bind fun r hr => ?_
      cases r with
      | none => exact ih fun b hb => h b (List.mem_cons_of_mem a hb)
      | some b => exact hr

/-- A bounded loop obeys what its body obeys, when the body keeps the loop invariant `I`. -/
theorem iterate {body : σ → Prog Op Ans Label Err (σ ⊕ α)} {I : σ → Prop}
    (h : ∀ s, I s → Obeys P A (body s) (Sum.elim I R)) (fuel : ℕ) {s : σ} (hs : I s) :
    Obeys P A (Prog.iterate fuel body s) R := by
  induction fuel generalizing s with
  | zero => trivial
  | succ fuel ih =>
      refine (h s hs).bind fun r hr => ?_
      cases r with
      | inl s' => exact ih hr
      | inr a => exact hr

end Obeys

end Program
