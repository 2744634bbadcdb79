import Almond.Conc.Solo

/-! # What a task returns

A task without locks returns a value for the answers that it gets, in the order in which it asks for them. -/

namespace Conc.Task

variable {Req : Type} {Resp : Req → Type} {L Env σ α β ε : Type}

/-- A task returns a value after some requests and their answers, the first one first. -/
def Returns : Task Req Resp L α → List (Event Req Resp) → α → Prop
  | .ret a, events, b => events = [] ∧ a = b
  | .call r k, events, b => ∃ x rest, events = ⟨r, x⟩ :: rest ∧ (k x).Returns rest b
  | .acquire _ k, events, b => k.Returns events b
  | .release _ k, events, b => k.Returns events b

/-- A request is answered first. -/
theorem Returns.of_call {p : Task Req Resp L α} {r : Req} {k : Resp r → Task Req Resp L α} {rest : List (Event Req Resp)} {a : α}
    (hp : p = .call r k) (x : Resp r) (h : (k x).Returns rest a) : p.Returns (⟨r, x⟩ :: rest) a :=
  hp ▸ ⟨x, rest, rfl, h⟩

/-- A sequence returns what its second part returns, after what its first part returned. -/
theorem returns_bind_iff {p : Task Req Resp L α} {f : α → Task Req Resp L β} {events : List (Event Req Resp)} {b : β} :
    (p.bind f).Returns events b ↔ ∃ before after a, events = before ++ after ∧ p.Returns before a ∧ (f a).Returns after b := by
  induction p generalizing events with
  | ret a =>
    constructor
    · exact fun h => ⟨[], events, a, rfl, ⟨rfl, rfl⟩, h⟩
    · rintro ⟨_, after, _, rfl, ⟨rfl, rfl⟩, h⟩
      exact h
  | call r k ih =>
    constructor
    · rintro ⟨x, rest, rfl, h⟩
      obtain ⟨before, after, a, rfl, hp, hf⟩ := (ih x).1 h
      exact ⟨⟨r, x⟩ :: before, after, a, rfl, ⟨x, before, rfl, hp⟩, hf⟩
    · rintro ⟨_, after, a, rfl, ⟨x, before, rfl, hp⟩, hf⟩
      exact ⟨x, before ++ after, rfl, (ih x).2 ⟨before, after, a, rfl, hp, hf⟩⟩
  | acquire l k ih => exact ih
  | release l k ih => exact ih

/-- A sequence of tasks that may fail. -/
theorem returns_run_bind_iff {p : ExceptT ε (Task Req Resp L) α} {f : α → ExceptT ε (Task Req Resp L) β}
    {events : List (Event Req Resp)} {b : Except ε β} :
    Returns (p >>= f).run events b ↔ ∃ before after x, events = before ++ after ∧ Returns p.run before x ∧
      match x with
      | .ok a => Returns (f a).run after b
      | .error e => after = [] ∧ .error e = b := by
  rw [ExceptT.run_bind, bind_eq, returns_bind_iff]
  refine exists_congr fun before => exists_congr fun after => exists_congr fun x => ?_
  cases x <;> exact Iff.rfl

/-- A sequence succeeds when its parts do. -/
theorem returns_run_bind_ok_iff {p : ExceptT ε (Task Req Resp L) α} {f : α → ExceptT ε (Task Req Resp L) β}
    {events : List (Event Req Resp)} {b : β} :
    Returns (p >>= f).run events (.ok b) ↔ ∃ before after a, events = before ++ after ∧ Returns p.run before (.ok a) ∧
      Returns (f a).run after (.ok b) := by
  rw [returns_run_bind_iff]
  constructor
  · intro h
    obtain ⟨before, after, x, hevents, hp, hf⟩ := h
    cases x with
    | ok a => exact ⟨before, after, a, hevents, hp, hf⟩
    | error e => exact nomatch hf.2
  · intro h
    obtain ⟨before, after, a, hevents, hp, hf⟩ := h
    exact ⟨before, after, .ok a, hevents, hp, hf⟩

/-- A sequence that succeeds ends with its second part. -/
theorem Returns.of_bind_right {p : ExceptT ε (Task Req Resp L) α} {f : α → ExceptT ε (Task Req Resp L) β}
    {events : List (Event Req Resp)} {b : β} (h : Returns (p >>= f).run events (.ok b)) :
    ∃ a after, after ⊆ events ∧ Returns (f a).run after (.ok b) := by
  obtain ⟨before, after, a, rfl, _, hf⟩ := returns_run_bind_ok_iff.1 h
  exact ⟨a, after, List.subset_append_right before after, hf⟩

/-- A sequence that succeeds starts with its first part. -/
theorem Returns.of_bind_left {p : ExceptT ε (Task Req Resp L) α} {f : α → ExceptT ε (Task Req Resp L) β}
    {events : List (Event Req Resp)} {b : β} (h : Returns (p >>= f).run events (.ok b)) :
    ∃ a before, before ⊆ events ∧ Returns p.run before (.ok a) := by
  obtain ⟨before, after, a, rfl, hp, _⟩ := returns_run_bind_ok_iff.1 h
  exact ⟨a, before, List.subset_append_left before after, hp⟩

/-- What a task returns alone is something that it returns. -/
theorem exists_returns_alone (exec : (r : Req) → Env → σ → Resp r × σ) (env : Nat → Env) (p : Task Req Resp L α) (n : Nat) (s : σ) :
    ∃ events, p.Returns events (p.alone exec env n s).1 := by
  induction p generalizing n s with
  | ret a => exact ⟨[], rfl, rfl⟩
  | call r k ih =>
    obtain ⟨events, h⟩ := ih (exec r (env n) s).1 (n + 1) (exec r (env n) s).2
    exact ⟨_, _, events, rfl, h⟩
  | acquire l k ih => exact ih n s
  | release l k ih => exact ih n s

/-- A sequence can return what its second part can, after its first part succeeded. -/
theorem exists_returns_bind_ok {p : ExceptT ε (Task Req Resp L) α} {f : α → ExceptT ε (Task Req Resp L) β} {a : α} {x : Except ε β}
    (hp : ∃ events, Returns p.run events (.ok a)) (hf : ∃ events, Returns (f a).run events x) : ∃ events, Returns (p >>= f).run events x := by
  obtain ⟨before, hp⟩ := hp
  obtain ⟨after, hf⟩ := hf
  exact ⟨before ++ after, returns_run_bind_iff.2 ⟨before, after, .ok a, rfl, hp, hf⟩⟩

/-- A sequence can fail as its first part can. -/
theorem exists_returns_bind_error {p : ExceptT ε (Task Req Resp L) α} {f : α → ExceptT ε (Task Req Resp L) β} {e : ε}
    (hp : ∃ events, Returns p.run events (.error e)) : ∃ events, Returns (p >>= f).run events (.error e) := by
  obtain ⟨events, hp⟩ := hp
  exact ⟨events ++ [], returns_run_bind_iff.2 ⟨events, [], .error e, rfl, hp, rfl, rfl⟩⟩

/-! ## What a task can return -/

/-- Whatever the answers are, what a task returns satisfies `R`. -/
def Ends (R : α → Prop) (p : Task Req Resp L α) : Prop :=
  ∀ events a, p.Returns events a → R a

variable {R R' : α → Prop} {S : β → Prop}

/-- The end of a task. -/
theorem ends_ret {a : α} (h : R a) : (ret a : Task Req Resp L α).Ends R := by
  intro events b hb
  exact hb.2 ▸ h

/-- What a task ends with can be described more loosely. -/
theorem Ends.mono (hR : ∀ a, R a → R' a) {p : Task Req Resp L α} (hp : p.Ends R) : p.Ends R' := by
  intro events a ha
  exact hR a (hp events a ha)

/-- Two facts of what a task ends with. -/
theorem Ends.and {p : Task Req Resp L α} (hp : p.Ends R) (hp' : p.Ends R') : p.Ends fun a => R a ∧ R' a := by
  intro events a ha
  exact ⟨hp events a ha, hp' events a ha⟩

/-- Every task ends with something. -/
theorem ends_trivial (p : Task Req Resp L α) : p.Ends fun _ => True := by
  intro events a _
  trivial

/-- What a sequence ends with. -/
theorem Ends.bind {p : Task Req Resp L α} {f : α → Task Req Resp L β} (hp : p.Ends R) (hf : ∀ a, R a → (f a).Ends S) :
    (p.bind f).Ends S := by
  intro events b hb
  obtain ⟨before, after, a, _, ha, hb⟩ := returns_bind_iff.1 hb
  exact hf a (hp before a ha) after b hb

/-- What a sequence of tasks that may fail ends with. -/
theorem Ends.run_bind {R : Except ε α → Prop} {S : Except ε β → Prop} {p : ExceptT ε (Task Req Resp L) α}
    {f : α → ExceptT ε (Task Req Resp L) β} (hp : Ends R p.run) (he : ∀ e, R (.error e) → S (.error e))
    (hf : ∀ a, R (.ok a) → Ends S (f a).run) : Ends S (p >>= f).run := by
  rw [ExceptT.run_bind, bind_eq]
  refine hp.bind fun x hx => ?_
  cases x with
  | ok a => exact hf a hx
  | error e => exact ends_ret (he e hx)

/-- A lifted task that ends somehow, followed by more. -/
theorem Ends.lift_bind_of {S : Except ε β → Prop} {p : Task Req Resp L α} {f : α → ExceptT ε (Task Req Resp L) β} (hp : p.Ends R)
    (hf : ∀ a, R a → Ends S (f a).run) : Ends S ((liftM p : ExceptT ε (Task Req Resp L) α) >>= f).run := by
  rw [run_lift_bind]
  exact hp.bind hf

/-- A lifted task followed by more. -/
theorem Ends.lift_bind {S : Except ε β → Prop} {p : Task Req Resp L α} {f : α → ExceptT ε (Task Req Resp L) β}
    (hf : ∀ a, Ends S (f a).run) : Ends S ((liftM p : ExceptT ε (Task Req Resp L) α) >>= f).run := by
  rw [run_lift_bind]
  exact (ends_trivial p).bind fun a _ => hf a

/-- A task under a lock. -/
theorem Ends.withLock {p : Task Req Resp L α} {l : L} (hp : p.Ends R) : (Task.withLock l p).Ends R :=
  Ends.bind hp fun _ ha => ends_ret (L := L) ha

/-- What a task obeys, with what it ends with. -/
theorem Obeys.ends {Q : Type} {A : Protocol Req Resp L Q} {T : Q → α → Prop} {q : Q} {p : Task Req Resp L α} (hp : p.Obeys A T q)
    (hS : p.Ends R) : p.Obeys A (fun q a => T q a ∧ R a) q := by
  induction p generalizing q with
  | ret a => exact ⟨hp, hS [] a ⟨rfl, rfl⟩⟩
  | call r k ih => exact ⟨hp.1, fun x hx => ih x (hp.2 x hx) fun events a ha => hS (⟨r, x⟩ :: events) a ⟨x, events, rfl, ha⟩⟩
  | acquire l k ih => exact ⟨hp.1, ih hp.2 hS⟩
  | release l k ih => exact ⟨hp.1, ih hp.2 hS⟩

/-- The requests of a sequence of tasks that may fail and take locks, of which the first one ends somehow. -/
theorem Issues.run_bind_of {P : Req → Prop} {R : Except ε α → Prop} {p : ExceptT ε (Task Req Resp L) α}
    {f : α → ExceptT ε (Task Req Resp L) β} (hp : Issues P p.run) (hR : Ends R p.run) (hf : ∀ a, R (.ok a) → Issues P (f a).run) :
    Issues P (p >>= f).run := by
  refine Obeys.run_bind (Obeys.ends hp hR) (fun _ _ h => h.1) fun q a h => ?_
  obtain ⟨rfl, ha⟩ := h
  exact hf a ha

end Conc.Task
