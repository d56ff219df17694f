import Mathlib.Data.Option.Basic
import Mathlib.Data.List.Induction

/-!
# Computations that ask questions

A `Reading` is a computation that may ask an outside party questions before it returns, and may
give up. Nothing is said about who answers: a fixed table of answers (`answer`), a server with a
state of its own (`serve`), or different parties at different moments (`Steps`, which lists the
answers as they came). The central fact is `answer_of_steps`: if all the answers a computation was
given agree with a table, then the computation on that table ends in the same way, no matter when
and by whom the answers were given.
-/

namespace MonadExecution

open List

/-- A computation that asks questions `q : Q` with answers in `A q`. -/
inductive Reading (Q : Type) (A : Q → Type) (α : Type) : Type where
  | done (x : α)
  | fail
  | ask (q : Q) (next : A q → Reading Q A α)

namespace Reading

variable {Q : Type} {A : Q → Type} {α β γ σ : Type}

/-- Go on with `f` after the first computation has returned. -/
protected def bind : Reading Q A α → (α → Reading Q A β) → Reading Q A β
  | done x, f => f x
  | fail, _ => fail
  | ask q next, f => ask q fun a => (next a).bind f

instance : Monad (Reading Q A) where
  pure := done
  bind := Reading.bind

@[simp] theorem done_bind (x : α) (f : α → Reading Q A β) : (done x >>= f) = f x := rfl

@[simp] theorem fail_bind (f : α → Reading Q A β) : ((fail : Reading Q A α) >>= f) = fail := rfl

/-! ## Answers from a fixed table -/

/-- The result when every question is answered from the table `v`. -/
def answer (v : (q : Q) → A q) : Reading Q A α → Option α
  | done x => some x
  | fail => none
  | ask q next => (next (v q)).answer v

@[simp] theorem answer_done (v : (q : Q) → A q) (x : α) : (done x : Reading Q A α).answer v = some x := rfl

@[simp] theorem answer_fail (v : (q : Q) → A q) : (fail : Reading Q A α).answer v = none := rfl

@[simp] theorem answer_ask (v : (q : Q) → A q) (q : Q) (next : A q → Reading Q A α) :
    (ask q next).answer v = (next (v q)).answer v := rfl

theorem answer_bind (v : (q : Q) → A q) (t : Reading Q A α) (f : α → Reading Q A β) :
    (t >>= f).answer v = (t.answer v).bind fun x => (f x).answer v := by
  induction t with
  | done x => rfl
  | fail => rfl
  | ask q next ih => exact ih (v q)

/-! ## Answers one by one -/

/-- `Steps t tr t'`: after the answers `tr`, the computation `t` has become `t'`. -/
inductive Steps : Reading Q A α → List (Σ q, A q) → Reading Q A α → Prop where
  | refl (t : Reading Q A α) : Steps t [] t
  | ask {q : Q} {next : A q → Reading Q A α} {a : A q} {tr : List (Σ q, A q)}
      {t' : Reading Q A α} (h : Steps (next a) tr t') : Steps (ask q next) (⟨q, a⟩ :: tr) t'

variable {t t' : Reading Q A α} {q : Q} {tr : List (Σ q, A q)} {next : A q → Reading Q A α} {x : α}
  {v : (q : Q) → A q} {R : α → β → Prop}

theorem Steps.snoc (h : Steps t tr (.ask q next)) (a : A q) : Steps t (tr ++ [⟨q, a⟩]) (next a) := by
  generalize ht : Reading.ask q next = t' at h
  induction h with
  | refl t =>
    subst ht
    exact .ask (.refl _)
  | ask _ ih => exact .ask (ih ht)

/-- `Ends B G t P`: as long as every answer is one that `B` allows, the computation asks `q` after the
answers `tr` only if `G tr q`, and if it returns `x` after the answers `tr`, then `P tr x`. -/
def Ends (B : (q : Q) → A q → Prop) :
    (List (Σ q, A q) → Q → Prop) → Reading Q A α → (List (Σ q, A q) → α → Prop) → Prop
  | _, done x, P => P [] x
  | _, fail, _ => True
  | G, ask q next, P =>
    G [] q ∧ ∀ a, B q a → (next a).Ends B (fun tr => G (⟨q, a⟩ :: tr)) fun tr x => P (⟨q, a⟩ :: tr) x

variable {B B' : (q : Q) → A q → Prop} {G G' : List (Σ q, A q) → Q → Prop}
  {P P' : List (Σ q, A q) → α → Prop}

/-- The condition on the result, for answers that are all allowed. -/
theorem Ends.of_steps (h : t.Ends B G P) (hs : Steps t tr (done x)) (hB : ∀ e ∈ tr, B e.1 e.2) : P tr x := by
  generalize ht : done x = t' at hs
  induction hs generalizing G P with
  | refl t =>
    subst ht
    exact h
  | @ask q next a tr t' _ ih =>
    exact ih (h.2 a (hB ⟨q, a⟩ mem_cons_self)) (fun e he => hB e (mem_cons_of_mem _ he)) ht

/-- The condition on a question, after answers that are all allowed. -/
theorem Ends.of_steps_ask (h : t.Ends B G P) (hs : Steps t tr (ask q next)) (hB : ∀ e ∈ tr, B e.1 e.2) : G tr q := by
  generalize ht : ask q next = t' at hs
  induction hs generalizing G P with
  | refl t =>
    subst ht
    exact h.1
  | @ask q' next' a tr t' _ ih =>
    exact ih (h.2 a (hB ⟨q', a⟩ mem_cons_self)) (fun e he => hB e (mem_cons_of_mem _ he)) ht

theorem Ends.mono (h : t.Ends B G P) (hB : ∀ q a, B' q a → B q a) (hG : ∀ tr q, G tr q → G' tr q)
    (hP : ∀ tr x, P tr x → P' tr x) : t.Ends B' G' P' := by
  induction t generalizing G G' P P' with
  | done x => exact hP _ _ h
  | fail => trivial
  | ask q next ih =>
    refine ⟨hG _ _ h.1, fun a ha => ih a (h.2 a (hB q a ha)) ?_ ?_⟩
    · exact fun tr q hq => hG _ _ hq
    · exact fun tr x hx => hP _ _ hx

theorem Ends.bind {f : α → Reading Q A β} {R : List (Σ q, A q) → β → Prop}
    (h : t.Ends B G fun tr x => (f x).Ends B (fun tr' => G (tr ++ tr')) fun tr' y => R (tr ++ tr') y) :
    (t >>= f).Ends B G R := by
  induction t generalizing G R with
  | done x => exact h
  | fail => trivial
  | ask q next ih => exact ⟨h.1, fun a ha => ih a (h.2 a ha)⟩

/-- With the answers of a table, the result is that on the table. -/
theorem Ends.and_answer (h : t.Ends (fun q a => a = v q) G P) :
    t.Ends (fun q a => a = v q) G fun tr x => P tr x ∧ t.answer v = some x := by
  induction t generalizing G P with
  | done x => exact ⟨h, rfl⟩
  | fail => trivial
  | ask q next ih =>
    refine ⟨h.1, ?_⟩
    rintro a rfl
    exact ih _ (h.2 _ rfl)

/-! ## Replaying answers on a table -/

/-- If the answers a computation was given are those of a table, then the table leads to the same place. -/
theorem answer_eq_of_steps (hs : Steps t tr t') (h : ∀ e ∈ tr, e.2 = v e.1) : t.answer v = t'.answer v := by
  induction hs with
  | refl t => rfl
  | @ask q next a tr t' _ ih =>
    have ha : a = v q := h ⟨q, a⟩ mem_cons_self
    subst ha
    exact ih fun e he => h e (mem_cons_of_mem _ he)

/-- If the answers a computation was given are those of a table, then it ends on the table as it did. -/
theorem answer_of_steps (hs : Steps t tr (done x)) (h : ∀ e ∈ tr, e.2 = v e.1) : t.answer v = some x :=
  answer_eq_of_steps hs h

/-- The last answer of a computation that has gone one step further. -/
theorem Steps.init {tr' : List (Σ q, A q)} {e : Σ q, A q} (h : Steps t (tr ++ e :: tr') t') :
    ∃ next, Steps t tr (Reading.ask e.1 next) := by
  induction tr generalizing t with
  | nil =>
    cases h with
    | ask _ => exact ⟨_, .refl _⟩
  | cons e' tr ih =>
    cases h with
    | ask h =>
      obtain ⟨next, hn⟩ := ih h
      exact ⟨next, .ask hn⟩

/-- It is enough to know, for every question after answers of the table, that its answer was that of
the table. -/
theorem agrees_of_steps (hs : Steps t tr t')
    (h : ∀ tr1 e tr2 next, tr = tr1 ++ e :: tr2 → (∀ e' ∈ tr1, e'.2 = v e'.1) → Steps t tr1 (ask e.1 next) →
      e.2 = v e.1) :
    ∀ e ∈ tr, e.2 = v e.1 := by
  have hall : ∀ tr1 tr2, tr = tr1 ++ tr2 → ∀ e ∈ tr1, e.2 = v e.1 := by
    intro tr1
    induction tr1 using List.reverseRecOn with
    | nil => simp
    | append_singleton tr1 e ih =>
      intro tr2 heq
      have heq' : tr = tr1 ++ e :: tr2 := by simp [heq]
      have hold := ih (e :: tr2) heq'
      obtain ⟨next, hn⟩ := Steps.init (heq' ▸ hs)
      intro e' he'
      rcases mem_append.mp he' with he' | he'
      · exact hold e' he'
      rw [mem_singleton.mp he']
      exact h tr1 e tr2 next heq' hold hn
  exact hall tr [] (append_nil tr).symm

/-- A computation on a table has been given the answers of the table. -/
theorem exists_steps_of_answer (h : t.answer v = some x) : ∃ tr, Steps t tr (done x) ∧ ∀ e ∈ tr, e.2 = v e.1 := by
  induction t with
  | done y =>
    cases h
    exact ⟨[], .refl _, by simp⟩
  | fail => cases h
  | ask q next ih =>
    obtain ⟨tr, hs, htr⟩ := ih (v q) h
    refine ⟨⟨q, v q⟩ :: tr, .ask hs, ?_⟩
    intro e he
    rcases mem_cons.mp he with rfl | he
    · rfl
    · exact htr e he

/-! ## A server with a state -/

/-- The result, and the server's state, when a server answers. -/
def serve (h : (q : Q) → σ → Option (A q × σ)) : Reading Q A α → σ → Option (α × σ)
  | done x, s => some (x, s)
  | fail, _ => none
  | ask q next, s => (h q s).bind fun (a, s') => (next a).serve h s'

/-! ## Two computations side by side -/

/-- Two computations that ask the same questions and, given the same answers, both give up or return
related results. -/
inductive Same (R : α → β → Prop) : Reading Q A α → Reading Q A β → Prop where
  | done {x : α} {y : β} (h : R x y) : Same R (.done x) (.done y)
  | fail : Same R .fail .fail
  | ask {q : Q} {f : A q → Reading Q A α} {g : A q → Reading Q A β} (h : ∀ a, Same R (f a) (g a)) :
      Same R (.ask q f) (.ask q g)

section

variable {t' : Reading Q A β} (h : Same R t t')

include h

theorem Same.bind {α' β' : Type} {S : α' → β' → Prop} {f : α → Reading Q A α'} {g : β → Reading Q A β'}
    (hf : ∀ x y, R x y → Same S (f x) (g y)) : Same S (t >>= f) (t' >>= g) := by
  induction h with
  | done hxy => exact hf _ _ hxy
  | fail => exact .fail
  | ask _ ih => exact .ask ih

/-- No server can tell the two apart. -/
theorem Same.serve (answer : (q : Q) → σ → Option (A q × σ)) (s : σ) :
    Option.Rel (fun x y => R x.1 y.1 ∧ x.2 = y.2) (t.serve answer s) (t'.serve answer s) := by
  induction h generalizing s with
  | done hxy => exact .some ⟨hxy, rfl⟩
  | fail => exact .none
  | @ask q f g _ ih =>
    show Option.Rel _ ((answer q s).bind _) ((answer q s).bind _)
    cases answer q s with
    | none => exact .none
    | some y => exact ih y.1 y.2

/-- On a table of answers, the second returns if the first does. -/
theorem Same.answer (hx : t.answer v = some x) : ∃ y, t'.answer v = some y ∧ R x y := by
  induction h with
  | done hxy =>
    cases hx
    exact ⟨_, rfl, hxy⟩
  | fail => cases hx
  | ask _ ih => exact ih (v _) hx

end

end Reading

end MonadExecution
