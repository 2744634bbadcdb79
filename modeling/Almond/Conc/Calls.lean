import Almond.Conc.Solo

/-! # Where a task calls its parts

A program that prepares a call of another one is judged by the store at the call. A task that runs alone, with the requests it issued
and the responses it received, calls its parts in certain stores; between the calls it issues only requests that are permitted. -/

namespace Conc.Task

variable {Req : Type} {Resp : Req → Type} {L Env σ α β γ ε : Type}

/-- Alone, whatever the outside decides, a task without locks issues requests only where `P` permits them, and ends in `Q`. The list is
what it issued and received, the latest first. -/
def Leads (exec : (r : Req) → Env → σ → Resp r × σ) (P : List (Event Req Resp) → Req → σ → Prop) :
    Task Req Resp L α → (α → List (Event Req Resp) → σ → Prop) → List (Event Req Resp) → σ → Prop
  | .ret a, Q, past, s => Q a past s
  | .call r k, Q, past, s =>
    P past r s ∧ ∀ e, (k (exec r e s).1).Leads exec P Q (⟨r, (exec r e s).1⟩ :: past) (exec r e s).2
  | .acquire _ _, _, _, _ => False
  | .release _ _, _, _, _ => False

/-- Alone, whatever the outside decides, a task issues requests only where `P` permits them, and calls at most one part, where `S`
permits it. -/
inductive Calls (exec : (r : Req) → Env → σ → Resp r × σ) (P : List (Event Req Resp) → Req → σ → Prop)
    (S : List (Event Req Resp) → Task Req Resp L γ → σ → Prop) : Task Req Resp L α → List (Event Req Resp) → σ → Prop
  | ret {a past s} : Calls exec P S (.ret a) past s
  | request {r k past s} (hr : P past r s) (hk : ∀ e, Calls exec P S (k (exec r e s).1) (⟨r, (exec r e s).1⟩ :: past) (exec r e s).2) :
      Calls exec P S (.call r k) past s
  | part {p f past s} (hp : S past p s) (hf : ∀ a past' s', (f a).Leads exec P (fun _ _ _ => True) past' s') :
      Calls exec P S (p.bind f) past s

variable {exec : (r : Req) → Env → σ → Resp r × σ} {P : List (Event Req Resp) → Req → σ → Prop}
  {S : List (Event Req Resp) → Task Req Resp L γ → σ → Prop} {past : List (Event Req Resp)} {s : σ}

/-! ## Parts without calls -/

section

variable {Q Q' : α → List (Event Req Resp) → σ → Prop} {R : α → Prop} {P' : Req → Prop}

/-- The rule of consequence. -/
theorem Leads.mono (hQ : ∀ a past s, Q a past s → Q' a past s) {p : Task Req Resp L α} (hp : p.Leads exec P Q past s) :
    p.Leads exec P Q' past s := by
  induction p generalizing past s with
  | ret a => exact hQ a past s hp
  | call r k ih => exact ⟨hp.1, fun e => ih _ (hp.2 e)⟩
  | acquire l k => exact hp.elim
  | release l k => exact hp.elim

/-- What is permitted can be weakened. -/
theorem Leads.permits {P' : List (Event Req Resp) → Req → σ → Prop} (hP : ∀ past r s, P past r s → P' past r s)
    {p : Task Req Resp L α} (hp : p.Leads exec P Q past s) : p.Leads exec P' Q past s := by
  induction p generalizing past s with
  | ret a => exact hp
  | call r k ih => exact ⟨hP _ _ _ hp.1, fun e => ih _ (hp.2 e)⟩
  | acquire l k => exact hp.elim
  | release l k => exact hp.elim

/-- The rule of sequencing. -/
theorem Leads.bind {p : Task Req Resp L α} {f : α → Task Req Resp L β} {Q' : β → List (Event Req Resp) → σ → Prop}
    (hp : p.Leads exec P Q past s) (hf : ∀ a past s, Q a past s → (f a).Leads exec P Q' past s) :
    (p.bind f).Leads exec P Q' past s := by
  induction p generalizing past s with
  | ret a => exact hf a past s hp
  | call r k ih => exact ⟨hp.1, fun e => ih _ (hp.2 e)⟩
  | acquire l k => exact hp.elim
  | release l k => exact hp.elim

/-- The rule of sequencing for tasks that may fail: an error skips the rest. -/
theorem Leads.run_bind {p : ExceptT ε (Task Req Resp L) α} {f : α → ExceptT ε (Task Req Resp L) β}
    {Q : Except ε α → List (Event Req Resp) → σ → Prop} {Q' : Except ε β → List (Event Req Resp) → σ → Prop}
    (hp : Leads exec P p.run Q past s) (he : ∀ e past s, Q (.error e) past s → Q' (.error e) past s)
    (hf : ∀ a past s, Q (.ok a) past s → Leads exec P (f a).run Q' past s) : Leads exec P (p >>= f).run Q' past s := by
  rw [ExceptT.run_bind, bind_eq]
  refine hp.bind fun x past s hx => ?_
  cases x with
  | ok a => exact hf a past s hx
  | error e => exact he e past s hx

/-- A fact that no request changes is kept along. -/
theorem Leads.keep {I : List (Event Req Resp) → σ → Prop} {p : Task Req Resp L α} (hp : p.Leads exec P Q past s)
    (hI : ∀ past r s, P past r s → I past s → ∀ e, I (⟨r, (exec r e s).1⟩ :: past) (exec r e s).2) (h : I past s) :
    p.Leads exec P (fun a past s => Q a past s ∧ I past s) past s := by
  induction p generalizing past s with
  | ret a => exact ⟨hp, h⟩
  | call r k ih => exact ⟨hp.1, fun e => ih _ (hp.2 e) (hI past r s hp.1 h e)⟩
  | acquire l k => exact hp.elim
  | release l k => exact hp.elim

/-- What a task leads to and what it yields hold together. -/
theorem Leads.yields {Q₁ : α → σ → Prop} {p : Task Req Resp L α} (hp : p.Leads exec P Q past s)
    (hy : p.Yields exec (fun _ => True) Q₁ s) : p.Leads exec P (fun a past s => Q a past s ∧ Q₁ a s) past s := by
  induction p generalizing past s with
  | ret a => exact ⟨hp, hy⟩
  | call r k ih => exact ⟨hp.1, fun e => ih _ (hp.2 e) (hy e trivial)⟩
  | acquire l k => exact hp.elim
  | release l k => exact hp.elim

/-- What a task leads to is what it yields. -/
theorem Leads.forget {Q : α → σ → Prop} {p : Task Req Resp L α} (hp : p.Leads exec P (fun a _ s => Q a s) past s) :
    p.Yields exec (fun _ => True) Q s := by
  induction p generalizing past s with
  | ret a => exact hp
  | call r k ih => exact fun e _ => ih _ (hp.2 e)
  | acquire l k => exact hp.elim
  | release l k => exact hp.elim

/-- What was recorded stays on record. -/
theorem Leads.suffix {p : Task Req Resp L α} (hp : p.Leads exec P Q past s) :
    p.Leads exec P (fun a past' s => Q a past' s ∧ past <:+ past') past s :=
  hp.keep (fun _ _ _ _ h _ => h.trans (List.suffix_cons ..)) (List.suffix_refl past)

/-- What a task yields alone, when its requests are permitted. -/
theorem Yields.leads {Q : α → σ → Prop} {p : Task Req Resp L α} (hu : p.Within P' R) (hp : p.Yields exec (fun _ => True) Q s)
    (hP : ∀ past r s, P' r → P past r s) : p.Leads exec P (fun a _ s => R a ∧ Q a s) past s := by
  induction p generalizing past s with
  | ret a => exact ⟨hu, hp⟩
  | call r k ih => exact ⟨hP _ _ _ hu.1, fun e => ih _ (hu.2 _ trivial) (hp e trivial)⟩
  | acquire l k => exact hu.1.elim
  | release l k => exact hu.1.elim

/-- An assembled task without parts leads to its results, when its requests are permitted, their responses are as expected, and both
follow from a fact about the store that its requests keep. -/
theorem Built.leads {I : σ → Prop} {V : (r : Req) → Resp r → Prop} {S' : Task Req Resp L γ → Prop} {p : Task Req Resp L α}
    (hp : p.Built V P' S' R) (hS : ∀ p, ¬ S' p) (hP : ∀ past r s, P' r → I s → P past r s)
    (hV : ∀ r e s, P' r → I s → V r (exec r e s).1 ∧ I (exec r e s).2) (hI : I s) :
    p.Leads exec P (fun a _ s => R a ∧ I s) past s := by
  induction hp generalizing past s with
  | ret ha => exact ⟨ha, hI⟩
  | call hr _ ih => exact ⟨hP _ _ _ hr hI, fun e => ih _ (hV _ e _ hr hI).1 (hV _ e _ hr hI).2⟩
  | sub hs _ _ => exact absurd hs (hS _)

end

/-! ## Calls -/

section

variable {Q : α → List (Event Req Resp) → σ → Prop}

/-- A part without calls followed by more. -/
theorem Leads.calls_bind {p : Task Req Resp L α} {f : α → Task Req Resp L β} (hp : p.Leads exec P Q past s)
    (hf : ∀ a past s, Q a past s → (f a).Calls exec P S past s) : (p.bind f).Calls exec P S past s := by
  induction p generalizing past s with
  | ret a => exact hf a past s hp
  | call r k ih => exact .request hp.1 fun e => ih _ (hp.2 e)
  | acquire l k => exact hp.elim
  | release l k => exact hp.elim

/-- A part that may fail and makes no call, followed by more. -/
theorem Leads.calls_run_bind {p : ExceptT ε (Task Req Resp L) α} {f : α → ExceptT ε (Task Req Resp L) β}
    {Q : Except ε α → List (Event Req Resp) → σ → Prop} (hp : Leads exec P p.run Q past s)
    (hf : ∀ a past s, Q (.ok a) past s → Calls exec P S (f a).run past s) : Calls exec P S (p >>= f).run past s := by
  rw [ExceptT.run_bind, bind_eq]
  refine hp.calls_bind fun x past s hx => ?_
  cases x with
  | ok a => exact hf a past s hx
  | error e => exact .ret

/-- A lifted part without calls, followed by more. -/
theorem Leads.calls_lift_bind {p : Task Req Resp L α} {f : α → ExceptT ε (Task Req Resp L) β} (hp : p.Leads exec P Q past s)
    (hf : ∀ a past s, Q a past s → Calls exec P S (f a).run past s) :
    Calls exec P S ((liftM p : ExceptT ε (Task Req Resp L) α) >>= f).run past s := by
  have hlift : ((liftM p : ExceptT ε (Task Req Resp L) α) >>= f).run = p.bind fun a => (f a).run := bind_assoc p _ _
  rw [hlift]
  exact hp.calls_bind hf

/-- A task that makes no call. -/
theorem Leads.calls {p : Task Req Resp L α} (hp : p.Leads exec P Q past s) : p.Calls exec P S past s := by
  rw [← bind_ret p]
  exact hp.calls_bind fun _ _ _ _ => .ret

/-- A lifted call followed by more. -/
theorem Calls.lift_part {p : Task Req Resp L γ} {f : γ → ExceptT ε (Task Req Resp L) β} (hp : S past p s)
    (hf : ∀ a past' s', Leads exec P (f a).run (fun _ _ _ => True) past' s') :
    Calls exec P S ((liftM p : ExceptT ε (Task Req Resp L) γ) >>= f).run past s := by
  have hlift : ((liftM p : ExceptT ε (Task Req Resp L) γ) >>= f).run = p.bind fun a => (f a).run := bind_assoc p _ _
  rw [hlift]
  exact .part hp hf

/-- A task that may call a part, followed by one that calls none. -/
theorem Calls.bind {p : Task Req Resp L α} {f : α → Task Req Resp L β} (hp : p.Calls exec P S past s)
    (hf : ∀ a past s, (f a).Leads exec P (fun _ _ _ => True) past s) : (p.bind f).Calls exec P S past s := by
  induction hp with
  | ret => exact (hf _ _ _).calls
  | request hr _ ih => exact .request hr ih
  | part hp hg =>
    rw [bind_assoc]
    exact .part hp fun a past s => (hg a past s).bind fun b past s _ => hf b past s

/-- What is permitted can be weakened. -/
theorem Calls.mono {P' : List (Event Req Resp) → Req → σ → Prop} {S' : List (Event Req Resp) → Task Req Resp L γ → σ → Prop}
    (hP : ∀ past r s, P past r s → P' past r s) (hS : ∀ past p s, S past p s → S' past p s) {p : Task Req Resp L α}
    (hp : p.Calls exec P S past s) : p.Calls exec P' S' past s := by
  induction hp with
  | ret => exact .ret
  | request hr _ ih => exact .request (hP _ _ _ hr) ih
  | part hp hf => exact .part (hS _ _ _ hp) fun a past s => (hf a past s).permits hP

/-- A fact that no permitted request changes holds at the call. -/
theorem Calls.keep {I : List (Event Req Resp) → σ → Prop} {p : Task Req Resp L α} (hp : p.Calls exec P S past s)
    (hI : ∀ past r s, P past r s → I past s → ∀ e, I (⟨r, (exec r e s).1⟩ :: past) (exec r e s).2) (h : I past s) :
    p.Calls exec P (fun past p s => S past p s ∧ I past s) past s := by
  induction hp with
  | ret => exact .ret
  | request hr _ ih => exact .request hr fun e => ih e (hI _ _ _ hr h e)
  | part hp hf => exact .part ⟨hp, h⟩ hf

/-- A fact about the record and the store that permitted and admitted requests keep holds at the call. -/
theorem Calls.obeying {sees : (r : Req) → Resp r → Prop} {mayTake : List (Event Req Resp) → L → Prop}
    {may : List (Event Req Resp) → Req → Prop} {R : List (Event Req Resp) → α → Prop} {I : List (Event Req Resp) → σ → Prop}
    {p : Task Req Resp L α} (hp : p.Calls exec P S past s) (ho : p.Obeys (.recording sees mayTake may) R past)
    (hI : ∀ past r s, P past r s → may past r → I past s → ∀ e, sees r (exec r e s).1 ∧ I (⟨r, (exec r e s).1⟩ :: past) (exec r e s).2)
    (h : I past s) : p.Calls exec P (fun past p s => S past p s ∧ I past s) past s := by
  induction hp with
  | ret => exact .ret
  | request hr _ ih =>
    refine .request hr fun e => ?_
    obtain ⟨hsees, hnext⟩ := hI _ _ _ hr ho.1 h e
    exact ih e (ho.2 _ hsees) hnext
  | part hp hf => exact .part ⟨hp, h⟩ hf

/-- What no permitted request changes, and the part establishes when it is called, holds in the end. -/
theorem Calls.yields {I : σ → Prop} {p : Task Req Resp L α} (hp : p.Calls exec P S past s)
    (hP : ∀ past r s, P past r s → I s → ∀ e, I (exec r e s).2)
    (hS : ∀ past p s, S past p s → p.Yields exec (fun _ => True) (fun _ s' => I s') s) (h : I s) :
    p.Yields exec (fun _ => True) (fun _ s' => I s') s := by
  induction hp with
  | ret => exact h
  | request hr _ ih => exact fun e _ => ih e (hP _ _ _ hr h e)
  | part hp hf =>
    refine (hS _ _ _ hp).bind fun a s hs => ?_
    have hkeep := (hf a [] s).keep (I := fun _ s => I s) hP hs
    exact (hkeep.mono fun _ _ _ h => h.2).forget

end

end Conc.Task
