import Almond.Conc.Logic

/-! # Protocols of a task

Much of what a program does is a matter of order: a request comes only after another one was answered in a certain way. A protocol
is an automaton that watches the requests of a task, their responses and its locks. Whether a task obeys one is decided without a
store: whatever the responses are, as long as they are of the form the protocol expects, each request is admitted in the state that
was reached. -/

namespace Conc

variable {Req : Type} {Resp : Req → Type} {L Q Q' Env σ Op Out α β γ ε : Type}

/-- An automaton that watches one task. -/
structure Protocol (Req : Type) (Resp : Req → Type) (L Q : Type) where
  /-- The responses that can come. -/
  sees : (r : Req) → Resp r → Prop
  /-- The requests that a state admits. -/
  may : Q → Req → Prop
  /-- The state after a response. -/
  next : Q → (r : Req) → Resp r → Q
  /-- The locks that may be taken. -/
  mayTake : Q → L → Prop
  /-- The state after a lock was taken. -/
  take : Q → L → Q
  /-- The locks that may be given back. -/
  mayGive : Q → L → Prop
  /-- The state after a lock was given back. -/
  give : Q → L → Q

namespace Task

/-- A task that only does what a protocol admits, from a state on, and whose result the last state allows. -/
def Obeys (A : Protocol Req Resp L Q) (R : Q → α → Prop) : Task Req Resp L α → Q → Prop
  | .ret a, q => R q a
  | .call r k, q => A.may q r ∧ ∀ x, A.sees r x → (k x).Obeys A R (A.next q r x)
  | .acquire l k, q => A.mayTake q l ∧ k.Obeys A R (A.take q l)
  | .release l k, q => A.mayGive q l ∧ k.Obeys A R (A.give q l)

variable {A : Protocol Req Resp L Q} {R R' : Q → α → Prop} {S : Q → β → Prop} {q : Q}

/-- A second protocol simulates a first one: it admits what the first admits, it sees no other responses, and related states stay
related. -/
structure Simulates (A : Protocol Req Resp L Q) (B : Protocol Req Resp L Q') (T : Q → Q' → Prop) : Prop where
  sees : ∀ r x, B.sees r x → A.sees r x
  call : ∀ q q' r, T q q' → A.may q r → B.may q' r ∧ ∀ x, T (A.next q r x) (B.next q' r x)
  take : ∀ q q' l, T q q' → A.mayTake q l → B.mayTake q' l ∧ T (A.take q l) (B.take q' l)
  give : ∀ q q' l, T q q' → A.mayGive q l → B.mayGive q' l ∧ T (A.give q l) (B.give q' l)

/-- A task that obeys one protocol obeys every protocol that simulates it. -/
theorem Obeys.sim {B : Protocol Req Resp L Q'} {T : Q → Q' → Prop} {R' : Q' → α → Prop} (hT : Simulates A B T)
    (hR : ∀ q q' a, T q q' → R q a → R' q' a) {p : Task Req Resp L α} {q' : Q'} (hq : T q q') (h : p.Obeys A R q) :
    p.Obeys B R' q' := by
  induction p generalizing q q' with
  | ret a => exact hR q q' a hq h
  | call r k ih =>
    obtain ⟨hm, hn⟩ := hT.call q q' r hq h.1
    exact ⟨hm, fun x hx => ih x (hn x) (h.2 x (hT.sees r x hx))⟩
  | acquire l k ih =>
    obtain ⟨hm, hn⟩ := hT.take q q' l hq h.1
    exact ⟨hm, ih hn h.2⟩
  | release l k ih =>
    obtain ⟨hm, hn⟩ := hT.give q q' l hq h.1
    exact ⟨hm, ih hn h.2⟩

/-- Every task obeys a protocol that admits everything. -/
theorem obeys_of_admits (hmay : ∀ q r, A.may q r) (htake : ∀ q l, A.mayTake q l) (hgive : ∀ q l, A.mayGive q l) (hR : ∀ q a, R q a)
    (p : Task Req Resp L α) (q : Q) : p.Obeys A R q := by
  induction p generalizing q with
  | ret a => exact hR q a
  | call r k ih => exact ⟨hmay q r, fun x _ => ih x _⟩
  | acquire l k ih => exact ⟨htake q l, ih _⟩
  | release l k ih => exact ⟨hgive q l, ih _⟩

/-- What is promised of the result can be weakened. -/
theorem Obeys.mono (hR : ∀ q a, R q a → R' q a) {p : Task Req Resp L α} (h : p.Obeys A R q) : p.Obeys A R' q :=
  h.sim (B := A) (T := Eq) ⟨fun _ _ => id, fun _ _ _ hq hm => hq ▸ ⟨hm, fun _ => rfl⟩, fun _ _ _ hq hm => hq ▸ ⟨hm, rfl⟩,
    fun _ _ _ hq hm => hq ▸ ⟨hm, rfl⟩⟩ (fun q _ a hq => hq ▸ hR q a) rfl

/-- A sequence obeys when its first part does and the second does from every state the first can end in. -/
theorem Obeys.bind {p : Task Req Resp L α} {f : α → Task Req Resp L β} (hp : p.Obeys A R q)
    (hf : ∀ q a, R q a → (f a).Obeys A S q) : (p.bind f).Obeys A S q := by
  induction p generalizing q with
  | ret a => exact hf q a hp
  | call r k ih => exact ⟨hp.1, fun x hx => ih x (hp.2 x hx)⟩
  | acquire l k ih => exact ⟨hp.1, ih hp.2⟩
  | release l k ih => exact ⟨hp.1, ih hp.2⟩

/-- A sequence of tasks that may fail obeys when an error ends it in an allowed state. -/
theorem Obeys.run_bind {R : Q → Except ε α → Prop} {S : Q → Except ε β → Prop} {p : ExceptT ε (Task Req Resp L) α}
    {f : α → ExceptT ε (Task Req Resp L) β} (hp : Obeys A R p.run q) (he : ∀ q e, R q (.error e) → S q (.error e))
    (hf : ∀ q a, R q (.ok a) → Obeys A S (f a).run q) : Obeys A S (p >>= f).run q := by
  rw [ExceptT.run_bind, bind_eq]
  refine hp.bind fun q x hx => ?_
  cases x with
  | ok a => exact hf q a hx
  | error e => exact he q e hx

/-- A task lifted to one that may fail obeys as it did. -/
theorem Obeys.lift {R : Q → Except ε α → Prop} {p : Task Req Resp L α} (hp : p.Obeys A (fun q a => R q (.ok a)) q) :
    Obeys A R (liftM p : ExceptT ε (Task Req Resp L) α).run q :=
  hp.bind fun _ _ h => h

/-- A lifted task followed by more. -/
theorem Obeys.lift_bind {R : Q → α → Prop} {S : Q → Except ε β → Prop} {p : Task Req Resp L α}
    {f : α → ExceptT ε (Task Req Resp L) β} (hp : p.Obeys A R q) (hf : ∀ q a, R q a → Obeys A S (f a).run q) :
    Obeys A S ((liftM p : ExceptT ε (Task Req Resp L) α) >>= f).run q := by
  refine Obeys.run_bind (R := fun q x => ∃ a, x = .ok a ∧ R q a) (hp.bind fun _ a h => ⟨a, rfl, h⟩) ?_ ?_
  · rintro _ _ ⟨_, he, _⟩
    cases he
  · rintro q _ ⟨_, ⟨⟩, h⟩
    exact hf q _ h

/-- Keeping a record does not change what a task does. -/
theorem Obeys.traced {p : Task Req Resp L α} (h : p.Obeys A R q) : p.traced.Obeys A (fun q x => R q x.2) q := by
  induction p generalizing q with
  | ret a => exact h
  | call r k ih => exact ⟨h.1, fun x hx => (ih x (h.2 x hx)).bind fun _ _ h => h⟩
  | acquire l k ih => exact ⟨h.1, ih h.2⟩
  | release l k ih => exact ⟨h.1, ih h.2⟩

end Task

/-! ## Footprints

The protocols with one state say which requests a task issues at all. -/

namespace Protocol

/-- Only requests in `P`, and no lock. -/
def confined (P : Req → Prop) : Protocol Req Resp L Unit where
  sees _ _ := True
  may _ := P
  next _ _ _ := ()
  mayTake _ _ := False
  take _ _ := ()
  mayGive _ _ := False
  give _ _ := ()

/-- What a lock-free automaton admits, and one lock at a time. -/
def tracking (sees : (r : Req) → Resp r → Prop) (may : Q → Req → Prop) (next : Q → (r : Req) → Resp r → Q) :
    Protocol Req Resp L (Q × Option L) where
  sees := sees
  may q := may q.1
  next q r x := (next q.1 r x, q.2)
  mayTake q _ := q.2 = none
  take q l := (q.1, some l)
  mayGive q l := q.2 = some l
  give q _ := (q.1, none)

/-- Only requests in `P`, and one lock at a time. -/
def issues (P : Req → Prop) : Protocol Req Resp L (Option L) where
  sees _ _ := True
  may _ := P
  next q _ _ := q
  mayTake q _ := q = none
  take _ l := some l
  mayGive q l := q = some l
  give _ _ := none

/-- What a task may request, and which locks it may take, after the requests and responses so far, the latest first. -/
def recording (sees : (r : Req) → Resp r → Prop) (mayTake : List (Task.Event Req Resp) → L → Prop)
    (may : List (Task.Event Req Resp) → Req → Prop) : Protocol Req Resp L (List (Task.Event Req Resp)) where
  sees := sees
  may := may
  next q r x := ⟨r, x⟩ :: q
  mayTake := mayTake
  take q _ := q
  mayGive _ _ := True
  give q _ := q

end Protocol

namespace Task

variable {P P' : Req → Prop} {R R' : α → Prop} {S : β → Prop}

/-- A task without locks that issues only requests in `P` and returns only values in `R`. -/
abbrev Within (P : Req → Prop) (R : α → Prop) (p : Task Req Resp L α) : Prop :=
  p.Obeys (.confined P) (fun _ => R) ()

/-- A task without locks that issues only requests in `P`. -/
abbrev Uses (P : Req → Prop) (p : Task Req Resp L α) : Prop :=
  p.Within P fun _ => True

/-- A task that issues only requests in `P`, and gives every lock back that it takes. -/
abbrev Issues (P : Req → Prop) (p : Task Req Resp L α) : Prop :=
  p.Obeys (.issues P) (fun q _ => q = none) none

/-- A footprint can be widened. -/
theorem Within.mono (hP : ∀ r, P r → P' r) (hR : ∀ a, R a → R' a) {p : Task Req Resp L α} (h : p.Within P R) :
    p.Within P' R' :=
  Obeys.sim (T := Eq) ⟨fun _ _ _ => trivial, fun _ _ r _ hm => ⟨hP r hm, fun _ => rfl⟩, fun _ _ _ _ => False.elim, fun _ _ _ _ => False.elim⟩
    (fun _ _ a _ => hR a) rfl h

/-- The footprint of a sequence. -/
theorem Within.bind {p : Task Req Resp L α} {f : α → Task Req Resp L β} (hp : p.Within P R)
    (hf : ∀ a, R a → (f a).Within P S) : (p.bind f).Within P S :=
  Obeys.bind hp fun _ => hf

/-- The footprint of a sequence of tasks that may fail. -/
theorem Within.run_bind {R : Except ε α → Prop} {S : Except ε β → Prop} {p : ExceptT ε (Task Req Resp L) α}
    {f : α → ExceptT ε (Task Req Resp L) β} (hp : Within P R p.run) (he : ∀ e, R (.error e) → S (.error e))
    (hf : ∀ a, R (.ok a) → Within P S (f a).run) : Within P S (p >>= f).run :=
  Obeys.run_bind hp (fun _ => he) fun _ => hf

/-- The footprint of a task lifted to one that may fail. -/
theorem Within.lift {R : Except ε α → Prop} {p : Task Req Resp L α} (hp : p.Within P fun a => R (.ok a)) :
    Within P R (liftM p : ExceptT ε (Task Req Resp L) α).run :=
  Obeys.lift hp

/-- A footprint bounds the requests. -/
theorem Within.uses {p : Task Req Resp L α} (h : p.Within P R) : p.Uses P :=
  h.mono (fun _ => id) fun _ _ => trivial

/-- A task without locks issues its footprint. -/
theorem Within.issues (hP : ∀ r, P r → P' r) {p : Task Req Resp L α} (h : p.Within P R) : p.Issues P' :=
  Obeys.sim (T := fun _ q => q = none)
    ⟨fun _ _ _ => trivial, fun _ _ r hq hm => ⟨hP r hm, fun _ => hq⟩, fun _ _ _ _ => False.elim, fun _ _ _ _ => False.elim⟩
    (fun _ _ _ hq _ => hq) rfl h

/-- What a task issues can be widened. -/
theorem Issues.mono (hP : ∀ r, P r → P' r) {p : Task Req Resp L α} (h : p.Issues P) : p.Issues P' :=
  Obeys.sim (T := Eq) ⟨fun _ _ _ => trivial, fun _ _ r hq hm => ⟨hP r hm, fun _ => hq⟩, fun _ _ _ hq hm => hq ▸ ⟨hm, rfl⟩,
    fun _ _ _ hq hm => hq ▸ ⟨hm, rfl⟩⟩ (fun _ _ _ hq => hq ▸ id) rfl h

/-- The requests of a sequence that takes locks. -/
theorem Issues.bind {p : Task Req Resp L α} {f : α → Task Req Resp L β} (hp : p.Issues P) (hf : ∀ a, (f a).Issues P) :
    (p.bind f).Issues P :=
  Obeys.bind hp fun q a (hq : q = none) => by
    subst hq
    exact hf a

/-- The requests of a sequence of tasks that may fail and take locks. -/
theorem Issues.run_bind {p : ExceptT ε (Task Req Resp L) α} {f : α → ExceptT ε (Task Req Resp L) β} (hp : Issues P p.run)
    (hf : ∀ a, Issues P (f a).run) : Issues P (p >>= f).run :=
  Obeys.run_bind hp (fun _ _ => id) fun q a (hq : q = none) => by
    subst hq
    exact hf a

/-- The requests of a lifted task that takes locks, followed by more. -/
theorem Issues.lift_bind {p : Task Req Resp L α} {f : α → ExceptT ε (Task Req Resp L) β} (hp : p.Issues P)
    (hf : ∀ a, Issues P (f a).run) : Issues P ((liftM p : ExceptT ε (Task Req Resp L) α) >>= f).run :=
  Obeys.lift_bind hp fun q a (hq : q = none) => by
    subst hq
    exact hf a

/-- A task obeys an automaton that its requests leave where it is. -/
theorem Issues.obeys {sees : (r : Req) → Resp r → Prop} {may : Q → Req → Prop} {next : Q → (r : Req) → Resp r → Q} {q : Q}
    {p : Task Req Resp L α} (h : p.Issues P) (hP : ∀ r, P r → may q r ∧ ∀ x, next q r x = q) :
    p.Obeys (.tracking sees may next) (fun q' _ => q' = (q, none)) (q, none) :=
  Obeys.sim (T := fun l q' => q' = (q, l))
    ⟨fun _ _ _ => trivial, fun _ _ r hq hm => hq ▸ ⟨(hP r hm).1, fun x => Prod.ext ((hP r hm).2 x) rfl⟩,
      fun _ _ _ hq hm => hq ▸ ⟨hm, rfl⟩, fun _ _ _ hq hm => hq ▸ ⟨hm, rfl⟩⟩
    (fun _ _ _ hq hl => hl ▸ hq) rfl h

/-- A task between taking a lock and giving it back. -/
theorem Uses.issues_withLock {l : L} {p : Task Req Resp L α} (hp : p.Uses P) : (withLock l p).Issues P := by
  refine ⟨rfl, Obeys.bind (R := fun q _ => q = some l) ?_ fun q a hq => hq ▸ ⟨rfl, rfl⟩⟩
  exact Obeys.sim (T := fun _ q => q = some l)
    ⟨fun _ _ _ => trivial, fun _ _ r hq hm => ⟨hm, fun _ => hq⟩, fun _ _ _ _ => False.elim, fun _ _ _ _ => False.elim⟩
    (fun _ _ _ hq _ => hq) rfl hp

/-- The requests of a sequence. -/
theorem Uses.bind {p : Task Req Resp L α} {f : α → Task Req Resp L β} (hp : p.Uses P) (hf : ∀ a, (f a).Uses P) :
    (p.bind f).Uses P :=
  Within.bind hp fun a _ => hf a

/-- The requests of a sequence of tasks that may fail. -/
theorem Uses.run_bind {p : ExceptT ε (Task Req Resp L) α} {f : α → ExceptT ε (Task Req Resp L) β} (hp : Uses P p.run)
    (hf : ∀ a, Uses P (f a).run) : Uses P (p >>= f).run :=
  Within.run_bind hp (fun _ _ => trivial) fun a _ => hf a

/-- The requests of a lifted task followed by more. -/
theorem Uses.lift_bind {p : Task Req Resp L α} {f : α → ExceptT ε (Task Req Resp L) β} (hp : p.Uses P)
    (hf : ∀ a, Uses P (f a).run) : Uses P ((liftM p : ExceptT ε (Task Req Resp L) α) >>= f).run :=
  Uses.run_bind (Within.lift hp) hf

/-- A task with a footprint obeys every protocol that admits the footprint without changing its state. -/
theorem Within.obeys {A : Protocol Req Resp L Q} {q : Q} {p : Task Req Resp L α} (h : p.Within P R)
    (hP : ∀ r, P r → A.may q r ∧ ∀ x, A.next q r x = q) : p.Obeys A (fun q' a => q' = q ∧ R a) q :=
  Obeys.sim (T := fun _ q' => q' = q)
    ⟨fun _ _ _ => trivial, fun _ _ r hq hm => hq ▸ hP r hm, fun _ _ _ _ => False.elim, fun _ _ _ _ => False.elim⟩
    (fun _ _ _ hq hR => ⟨hq, hR⟩) rfl h

end Task

/-! ## Records -/

namespace Task

/-- What is left of a task after some requests and their responses, the latest first. -/
inductive After (p : Task Req Resp L α) : List (Event Req Resp) → Task Req Resp L α → Prop
  | refl : After p [] p
  | call {past r k} (h : After p past (.call r k)) (x : Resp r) : After p (⟨r, x⟩ :: past) (k x)
  | acquire {past l k} (h : After p past (.acquire l k)) : After p past k
  | release {past l k} (h : After p past (.release l k)) : After p past k

/-- A task has issued every request of its record, after the requests before it. -/
theorem After.split {p q : Task Req Resp L α} {after before : List (Event Req Resp)} {r : Req} {x : Resp r}
    (h : p.After (after ++ ⟨r, x⟩ :: before) q) : ∃ k, p.After before (.call r k) := by
  generalize hpast : after ++ ⟨r, x⟩ :: before = past at h
  induction h generalizing after with
  | refl => nomatch (List.append_eq_nil_iff.1 hpast).2
  | @call past r' k h x' ih =>
    cases after with
    | nil =>
      cases hpast
      exact ⟨k, h⟩
    | cons e after => exact ih (List.cons.inj hpast).2
  | acquire _ ih => exact ih hpast
  | release _ ih => exact ih hpast

section

variable {sees : (r : Req) → Resp r → Prop} {mayTake : List (Event Req Resp) → L → Prop} {may : List (Event Req Resp) → Req → Prop}
  {past : List (Event Req Resp)}

/-- What is left of a task obeys as the task did, when the responses so far could come. -/
theorem Obeys.after {R : List (Event Req Resp) → α → Prop} {p q : Task Req Resp L α}
    (hp : p.Obeys (.recording sees mayTake may) R []) (h : p.After past q) (hpast : ∀ e ∈ past, sees e.1 e.2) :
    q.Obeys (.recording sees mayTake may) R past := by
  induction h with
  | refl => exact hp
  | call _ x ih =>
    obtain ⟨hx, hpast⟩ := List.forall_mem_cons.1 hpast
    exact (ih hpast).2 x hx
  | acquire _ ih => exact (ih hpast).2
  | release _ ih => exact (ih hpast).2

/-- What is left of a task keeps a fact about the record that its requests keep, when they and its locks are admitted as long as it
holds. -/
theorem Obeys.keeping {P : Req → Prop} {I : List (Event Req Resp) → Prop} {R : Option L → α → Prop} {l : Option L}
    {p : Task Req Resp L α} (hp : p.Obeys (.issues P) R l) (htake : ∀ q l, I q → mayTake q l) (hmay : ∀ q r, I q → P r → may q r)
    (hkeep : ∀ q r x, I q → P r → I (⟨r, x⟩ :: q)) (hI : I past) : p.Obeys (.recording sees mayTake may) (fun q _ => I q) past :=
  Obeys.sim (T := fun _ q => I q)
    ⟨fun _ _ _ => trivial, fun _ q r hq hm => ⟨hmay q r hq hm, fun x => hkeep q r x hq hm⟩,
      fun _ q l hq _ => ⟨htake q l hq, hq⟩, fun _ _ _ hq _ => ⟨trivial, hq⟩⟩
    (fun _ _ _ hq _ => hq) hI hp

/-- A task keeps a fact about the record that its requests keep, when they and its locks are admitted as long as it holds. -/
theorem Issues.obeys_keeping {P : Req → Prop} {I : List (Event Req Resp) → Prop} {p : Task Req Resp L α} (hp : p.Issues P)
    (htake : ∀ q l, I q → mayTake q l) (hmay : ∀ q r, I q → P r → may q r) (hkeep : ∀ q r x, I q → P r → I (⟨r, x⟩ :: q)) (hI : I past) :
    p.Obeys (.recording sees mayTake may) (fun q _ => I q) past :=
  hp.keeping htake hmay hkeep hI

/-- A task that issues only requests that are always admitted, and takes only locks that may always be taken, extends the record. -/
theorem Issues.obeys_recording {P : Req → Prop} {p : Task Req Resp L α} (hp : p.Issues P)
    (htake : ∀ q l, past <:+ q → mayTake q l) (hmay : ∀ q r, past <:+ q → P r → may q r) :
    p.Obeys (.recording sees mayTake may) (fun q _ => past <:+ q) past :=
  hp.obeys_keeping htake hmay (fun _ _ _ hq _ => hq.trans (List.suffix_cons ..)) (List.suffix_refl past)

/-- A task without locks that issues only requests that are always admitted extends the record. -/
theorem Within.obeys_recording {P : Req → Prop} {R : α → Prop} {p : Task Req Resp L α} (hp : p.Within P R)
    (hmay : ∀ q r, past <:+ q → P r → may q r) :
    p.Obeys (.recording sees mayTake may) (fun q a => past <:+ q ∧ R a) past :=
  Obeys.sim (T := fun _ q => past <:+ q)
    ⟨fun _ _ _ => trivial, fun _ q r hq hm => ⟨hmay q r hq hm, fun _ => hq.trans (List.suffix_cons ..)⟩,
      fun _ _ _ _ => False.elim, fun _ _ _ _ => False.elim⟩
    (fun _ _ _ hq hR => ⟨hq, hR⟩) (List.suffix_refl past) hp

/-- A task between taking a lock and giving it back extends the record. -/
theorem Uses.obeys_recording_withLock {P : Req → Prop} {l : L} {p : Task Req Resp L α} (hp : p.Uses P) (htake : mayTake past l)
    (hmay : ∀ q r, past <:+ q → P r → may q r) :
    (withLock l p).Obeys (.recording sees mayTake may) (fun q _ => past <:+ q) past :=
  ⟨htake, (hp.obeys_recording hmay).bind fun _ _ hq => ⟨trivial, hq.1⟩⟩

end

/-- What a task did in a history, the latest first, and the operation it did it for. -/
def record (t : Tid) (past : List (Sys Req Resp L σ Op Out × Label Req Resp L Op Out)) : List (Op × Event Req Resp) :=
  past.filterMap fun s => match s.2 with
    | .called t' op r x => if t' = t then some (op, ⟨r, x⟩) else none
    | _ => none

/-- What a task did is in the history. -/
theorem mem_record {t : Tid} {past : List (Sys Req Resp L σ Op Out × Label Req Resp L Op Out)} {op : Op} {r : Req} {x : Resp r}
    (h : (op, ⟨r, x⟩) ∈ record t past) : ∃ c, (c, Label.called t op r x) ∈ past := by
  obtain ⟨⟨c, l⟩, hmem, hl⟩ := List.mem_filterMap.1 h
  cases l with
  | called t' op' r' x' =>
    by_cases ht : t' = t
    · subst ht
      simp only [if_true, Option.some.injEq] at hl
      cases hl
      exact ⟨c, hmem⟩
    · simp only [ht, if_false] at hl
      nomatch hl
  | _ => nomatch hl

/-- What a task did in the later part of a history and in the earlier one. -/
theorem record_append {t : Tid} (later earlier : List (Sys Req Resp L σ Op Out × Label Req Resp L Op Out)) :
    record t (later ++ earlier) = record t later ++ record t earlier :=
  List.filterMap_append

end Task

namespace History

variable [DecidableEq L] {M : Machine Req Resp L Env σ Op Out}
  {ok : List (Sys Req Resp L σ Op Out × Label Req Resp L Op Out) → Sys Req Resp L σ Op Out → Label Req Resp L Op Out → Prop}
  {w : World L σ} {past : List (Sys Req Resp L σ Op Out × Label Req Resp L Op Out)} {c c' : Sys Req Resp L σ Op Out}

/-- What is left of a task in a history is what its record leaves of its program. -/
def Stands (M : Machine Req Resp L Env σ Op Out) (past : List (Sys Req Resp L σ Op Out × Label Req Resp L Op Out)) (t : Tid) (op : Op)
    (p : Task Req Resp L Out) : Prop :=
  ∃ es, Task.record t past = es.map (Prod.mk op) ∧ (M.body op).After es p

/-- In a history that starts without tasks, a task is what its record leaves of its program, and a task that was not named yet did
nothing. -/
theorem stands (h : History M ok ⟨w, fun _ => none⟩ past c) :
    (∀ t op p, c.tasks t = some (op, p) → t < c.world.next ∧ Stands M past t op p) ∧
      ∀ t, c.world.next ≤ t → Task.record t past = [] := by
  refine h.invariant (I := fun past c => (∀ t op p, c.tasks t = some (op, p) → t < c.world.next ∧ Stands M past t op p) ∧
    ∀ t, c.world.next ≤ t → Task.record t past = []) ⟨(fun _ _ _ h => by cases h), fun _ _ => rfl⟩ ?_
  rintro past c l c' ⟨htasks, hnew⟩ - hs
  cases hs with
  | @spawn op he =>
    refine ⟨fun t op' p hp => ?_, fun t ht => hnew t (Nat.le_of_succ_le ht)⟩
    by_cases ht : t = c.world.next
    · subst ht
      cases (Function.update_self ..).symm.trans hp
      exact ⟨Nat.lt_succ_self _, [], hnew _ (Nat.le_refl _), .refl⟩
    · obtain ⟨hlt, ha⟩ := htasks t op' p ((Function.update_of_ne ht ..).symm.trans hp)
      exact ⟨Nat.lt_succ_of_lt hlt, ha⟩
  | @call t op r k e htask =>
    obtain ⟨hlt, es, hes, ha⟩ := htasks t op _ htask
    have hself : ∀ x, Task.record t ((c, Label.called t op r x) :: past) = (op, ⟨r, x⟩) :: Task.record t past :=
      fun x => List.filterMap_cons_some (if_pos rfl)
    have hother : ∀ x t', t' ≠ t → Task.record t' ((c, Label.called t op r x) :: past) = Task.record t' past :=
      fun x t' ht => List.filterMap_cons_none (if_neg (Ne.symm ht))
    refine ⟨fun t' op' p hp => ?_, fun t' ht => ?_⟩
    · by_cases ht : t' = t
      · subst ht
        cases (Function.update_self ..).symm.trans hp
        exact ⟨hlt, _, (hself _).trans (congrArg _ hes), ha.call _⟩
      · unfold Stands
        rw [hother _ _ ht]
        exact htasks t' op' p ((Function.update_of_ne ht ..).symm.trans hp)
    · rw [hother _ _ (Nat.ne_of_gt (Nat.lt_of_lt_of_le hlt ht))]
      exact hnew t' ht
  | @acquire t op l k htask hf =>
    refine ⟨fun t' op' p hp => ?_, hnew⟩
    by_cases ht : t' = t
    · subst ht
      cases (Function.update_self ..).symm.trans hp
      obtain ⟨hlt, es, hes, ha⟩ := htasks t' op _ htask
      exact ⟨hlt, es, hes, ha.acquire⟩
    · exact htasks t' op' p ((Function.update_of_ne ht ..).symm.trans hp)
  | @release t op l k htask =>
    refine ⟨fun t' op' p hp => ?_, hnew⟩
    by_cases ht : t' = t
    · subst ht
      cases (Function.update_self ..).symm.trans hp
      obtain ⟨hlt, es, hes, ha⟩ := htasks t' op _ htask
      exact ⟨hlt, es, hes, ha.release⟩
    · exact htasks t' op' p ((Function.update_of_ne ht ..).symm.trans hp)
  | @finish t op a htask => exact ⟨fun t' op' p hp => htasks t' op' p (Sys.tasks_of_erase hp), hnew⟩
  | @drop t op p htask => exact ⟨fun t' op' p hp => htasks t' op' p (Sys.tasks_of_erase hp), hnew⟩
  | tick e => exact ⟨htasks, hnew⟩
  | crash =>
    refine ⟨fun t op p hp => ?_, fun t ht => hnew t (Nat.le_of_succ_le ht)⟩
    simp only [Sys.reboot] at hp
    by_cases ht : t = c.world.next
    · subst ht
      cases (Function.update_self ..).symm.trans hp
      exact ⟨Nat.lt_succ_self _, [], hnew _ (Nat.le_refl _), .refl⟩
    · rw [Function.update_of_ne ht] at hp
      cases hp

/-- What is left of a task in a history obeys as its program does. -/
theorem obeys {sees : (r : Req) → Resp r → Prop} {mayTake : Op → List (Task.Event Req Resp) → L → Prop}
    {may : Op → List (Task.Event Req Resp) → Req → Prop} {R : Op → List (Task.Event Req Resp) → Out → Prop}
    (hbody : ∀ op, (M.body op).Obeys (.recording sees (mayTake op) (may op)) (R op) []) (h : History M ok ⟨w, fun _ => none⟩ past c)
    (hpast : ∀ t, ∀ e ∈ Task.record t past, sees e.2.1 e.2.2) {t : Tid} {op : Op} {p : Task Req Resp L Out}
    (ht : c.tasks t = some (op, p)) :
    ∃ es, Task.record t past = es.map (Prod.mk op) ∧ p.Obeys (.recording sees (mayTake op) (may op)) (R op) es := by
  obtain ⟨_, es, hes, ha⟩ := h.stands.1 t op p ht
  refine ⟨es, hes, (hbody op).after ha fun e he => ?_⟩
  exact hpast t (op, e) (hes ▸ List.mem_map_of_mem he)

/-- A response in a history is what the store gave. -/
theorem called (h : History M ok ⟨w, fun _ => none⟩ past c) {c₁ : Sys Req Resp L σ Op Out} {t : Tid} {op : Op} {r : Req} {x : Resp r}
    (hmem : (c₁, .called t op r x) ∈ past) : ∃ e, x = (M.exec t r e c₁.world.store).1 := by
  revert c₁
  refine h.invariant (I := fun past _ => ∀ {c₁}, (c₁, Label.called t op r x) ∈ past → ∃ e, x = (M.exec t r e c₁.world.store).1) nofun ?_
  intro past c l c' hpast _ hs c₁ hmem
  rcases List.mem_cons.1 hmem with heq | hmem
  · cases heq
    cases hs with
    | call e _ => exact ⟨e, rfl⟩
  · exact hpast hmem

/-- As long as the process lives, a running task was started, and has requested nothing before. -/
theorem started (hlive : ∀ past c l, ok past c l → l ≠ .crashed) (h : History M ok ⟨w, fun _ => none⟩ past c) :
    ∀ t op p, c.tasks t = some (op, p) →
      ∃ between c₀ before, past = between ++ (c₀, .spawned t op) :: before ∧ Task.record t before = [] := by
  induction h with
  | start => exact nofun
  | @step past c l c' h hok hs ih =>
    have hgoes : ∀ t op p, c.tasks t = some (op, p) →
        ∃ between c₀ before, (c, l) :: past = between ++ (c₀, .spawned t op) :: before ∧ Task.record t before = [] := by
      intro t op p ht
      obtain ⟨between, c₀, before, heq, hnone⟩ := ih t op p ht
      exact ⟨(c, l) :: between, c₀, before, by rw [heq, List.cons_append], hnone⟩
    have hput : ∀ {t₀ op₀ p₀ p₁ w}, c.tasks t₀ = some (op₀, p₀) → ∀ t op p, (c.put t₀ op₀ p₁ w).tasks t = some (op, p) →
        ∃ between c₀ before, (c, l) :: past = between ++ (c₀, .spawned t op) :: before ∧ Task.record t before = [] := by
      intro t₀ op₀ p₀ p₁ w h₀ t op p ht
      by_cases heq : t = t₀
      · subst heq
        cases (Function.update_self ..).symm.trans ht
        exact hgoes t _ p₀ h₀
      · exact hgoes t op p ((Function.update_of_ne heq ..).symm.trans ht)
    cases hs with
    | @spawn op₀ he =>
      intro t op p ht
      by_cases heq : t = c.world.next
      · subst heq
        cases (Function.update_self ..).symm.trans ht
        exact ⟨[], c, past, rfl, h.stands.2 _ (Nat.le_refl _)⟩
      · exact hgoes t op p ((Function.update_of_ne heq ..).symm.trans ht)
    | call e ht => exact hput ht
    | acquire ht _ => exact hput ht
    | release ht => exact hput ht
    | finish ht => exact fun t op p h => hgoes t op p (Sys.tasks_of_erase h)
    | drop ht => exact fun t op p h => hgoes t op p (Sys.tasks_of_erase h)
    | tick e => exact hgoes
    | crash => exact absurd rfl (hlive _ _ _ hok)

end History

/-! ## Assembled tasks

A large program is put together from simple requests and from a few tasks that matter. What holds of these holds of the program. -/

namespace Task

/-- A task that is put together from requests in `P`, whose responses satisfy `V`, and from tasks in `S`, and that returns only values
in `R`. -/
inductive Built (V : (r : Req) → Resp r → Prop) (P : Req → Prop) (S : Task Req Resp L γ → Prop) (R : α → Prop) :
    Task Req Resp L α → Prop
  | ret {a} (ha : R a) : Built V P S R (.ret a)
  | call {r k} (hr : P r) (hk : ∀ x, V r x → Built V P S R (k x)) : Built V P S R (.call r k)
  | sub {s f} (hs : S s) (hf : ∀ a, Built V P S R (f a)) : Built V P S R (s.bind f)

variable {V : (r : Req) → Resp r → Prop} {P P' : Req → Prop} {S : Task Req Resp L γ → Prop} {R : α → Prop} {R' : β → Prop}

/-- A footprint is built from its requests. -/
theorem Within.built (hP : ∀ r, P' r → P r) {p : Task Req Resp L α} (h : p.Within P' R) : p.Built V P S R := by
  induction p with
  | ret a => exact .ret h
  | call r k ih => exact .call (hP r h.1) fun x _ => ih x (h.2 x trivial)
  | acquire l k => exact h.1.elim
  | release l k => exact h.1.elim

/-- A sequence of assembled tasks. -/
theorem Built.bind {p : Task Req Resp L α} {f : α → Task Req Resp L β} (hp : p.Built V P S R)
    (hf : ∀ a, R a → (f a).Built V P S R') : (p.bind f).Built V P S R' := by
  induction hp with
  | ret ha => exact hf _ ha
  | call hr _ ih => exact .call hr ih
  | sub hs _ ih =>
    rw [bind_assoc]
    exact .sub hs ih

/-- A sequence of assembled tasks that may fail. -/
theorem Built.run_bind {R : Except ε α → Prop} {R' : Except ε β → Prop} {p : ExceptT ε (Task Req Resp L) α}
    {f : α → ExceptT ε (Task Req Resp L) β} (hp : Built V P S R p.run) (he : ∀ e, R (.error e) → R' (.error e))
    (hf : ∀ a, R (.ok a) → Built V P S R' (f a).run) : Built V P S R' (p >>= f).run := by
  rw [ExceptT.run_bind, bind_eq]
  refine hp.bind fun x hx => ?_
  cases x with
  | ok a => exact hf a hx
  | error e => exact .ret (he e hx)

/-- A lifted task followed by more. -/
theorem Built.lift_bind {R' : Except ε β → Prop} {p : Task Req Resp L α} {f : α → ExceptT ε (Task Req Resp L) β}
    (hp : p.Built V P S R) (hf : ∀ a, R a → Built V P S R' (f a).run) :
    Built V P S R' ((liftM p : ExceptT ε (Task Req Resp L) α) >>= f).run := by
  refine Built.run_bind (R := fun x => ∃ a, x = .ok a ∧ R a) (hp.bind fun a h => .ret ⟨a, rfl, h⟩) ?_ ?_
  · rintro _ ⟨_, he, _⟩
    cases he
  · rintro _ ⟨_, ⟨⟩, h⟩
    exact hf _ h

/-- What an assembled task returns can be described more loosely. -/
theorem Built.mono {R' : α → Prop} (hR : ∀ a, R a → R' a) {p : Task Req Resp L α} (hp : p.Built V P S R) :
    p.Built V P S R' := by
  induction hp with
  | ret ha => exact .ret (hR _ ha)
  | call hr _ ih => exact .call hr ih
  | sub hs _ ih => exact .sub hs ih

/-- The requests of an assembled task can be widened. -/
theorem Built.widen (hP : ∀ r, P r → P' r) {p : Task Req Resp L α} (hp : p.Built V P S R) : p.Built V P' S R := by
  induction hp with
  | ret ha => exact .ret ha
  | call hr _ ih => exact .call (hP _ hr) ih
  | sub hs _ ih => exact .sub hs ih

/-- The parts of an assembled task can be described more loosely. -/
theorem Built.parts {S' : Task Req Resp L γ → Prop} (hS : ∀ s, S s → S' s) {p : Task Req Resp L α} (hp : p.Built V P S R) :
    p.Built V P S' R := by
  induction hp with
  | ret ha => exact .ret ha
  | call hr _ ih => exact .call hr ih
  | sub hs _ ih => exact .sub (hS _ hs) ih

/-- An assembled task obeys a protocol in which its requests change nothing and its parts begin and end in the same state. -/
theorem Built.obeys {A : Protocol Req Resp L Q} {q : Q} {p : Task Req Resp L α} (hp : p.Built V P S R)
    (hsees : ∀ r x, A.sees r x → V r x) (hP : ∀ r, P r → A.may q r ∧ ∀ x, A.sees r x → A.next q r x = q)
    (hS : ∀ s, S s → s.Obeys A (fun q' _ => q' = q) q) : p.Obeys A (fun q' a => q' = q ∧ R a) q := by
  induction hp with
  | ret ha => exact ⟨rfl, ha⟩
  | @call r k hr _ ih =>
    refine ⟨(hP r hr).1, fun x hx => ?_⟩
    rw [(hP r hr).2 x hx]
    exact ih x (hsees r x hx)
  | @sub s f hs _ ih =>
    refine (hS s hs).bind fun q' a hq => ?_
    subst hq
    exact ih a

/-- An assembled task keeps a fact about the record that its requests and its parts keep. -/
theorem Built.obeys_keeping {sees : (r : Req) → Resp r → Prop} {mayTake : List (Event Req Resp) → L → Prop}
    {may : List (Event Req Resp) → Req → Prop} {past : List (Event Req Resp)} {I : List (Event Req Resp) → Prop} {p : Task Req Resp L α}
    (hp : p.Built V P S R) (hsees : ∀ r x, sees r x → V r x) (hmay : ∀ q r, I q → P r → may q r)
    (hkeep : ∀ q r x, I q → P r → I (⟨r, x⟩ :: q))
    (hS : ∀ q s, I q → S s → s.Obeys (.recording sees mayTake may) (fun q' _ => I q') q) (hI : I past) :
    p.Obeys (.recording sees mayTake may) (fun q a => I q ∧ R a) past := by
  induction hp generalizing past with
  | ret ha => exact ⟨hI, ha⟩
  | @call r k hr _ ih => exact ⟨hmay past r hI hr, fun x hx => ih x (hsees r x hx) (hkeep past r x hI hr)⟩
  | @sub s f hs _ ih => exact (hS past s hI hs).bind fun q' a hq' => ih a hq'

/-- An assembled task extends the record when its requests are always admitted and its parts extend it. -/
theorem Built.obeys_recording {sees : (r : Req) → Resp r → Prop} {mayTake : List (Event Req Resp) → L → Prop}
    {may : List (Event Req Resp) → Req → Prop} {past : List (Event Req Resp)} {p : Task Req Resp L α} (hp : p.Built V P S R)
    (hsees : ∀ r x, sees r x → V r x) (hmay : ∀ q r, past <:+ q → P r → may q r)
    (hS : ∀ q s, past <:+ q → S s → s.Obeys (.recording sees mayTake may) (fun q' _ => q <:+ q') q) :
    p.Obeys (.recording sees mayTake may) (fun q a => past <:+ q ∧ R a) past :=
  hp.obeys_keeping hsees hmay (fun _ _ _ hq _ => hq.trans (List.suffix_cons ..))
    (fun q s hq hs => (hS q s hq hs).mono fun _ _ hq' => hq.trans hq') (List.suffix_refl past)

end Task

/-! ## Keeping facts -/

variable [DecidableEq L] {M : Machine Req Resp L Env σ Op Out} {D : Discipline Req L σ Op} {t : Tid} {op : Op}
  {w : World L σ}

/-- A task that takes and gives back no lock keeps the locks it holds. -/
theorem Task.Uses.wp_owner {P : Req → Prop} {p : Task Req Resp L α} {F : α → World L σ → Prop} {l : L} (hu : p.Uses P)
    (hp : Conc.wp M D t op p F w) (ho : w.owner l = some t) :
    Conc.wp M D t op p (fun a w => w.owner l = some t ∧ F a w) w := by
  induction p generalizing w with
  | ret a => exact ⟨ho, hp⟩
  | call r k ih =>
    intro w' hr hi ha
    obtain ⟨hal, hk⟩ := hp w' hr hi ha
    exact ⟨hal, fun e he => ih _ (hu.2 _ trivial) (hk e he) (hr.1 l ho)⟩
  | acquire l k => exact hu.1.elim
  | release l k => exact hu.1.elim

/-- A task between taking a lock and giving it back. -/
theorem wp_withLock {P : Req → Prop} {p : Task Req Resp L α} {F : α → World L σ → Prop} {l : L} (hu : p.Uses P)
    (h : ∀ w', D.Expects t w w' → D.inv w' → w'.owner l = none → D.inv (w'.take l t) →
      wp M D t op p (fun a w => ∀ w', D.Expects t w w' → D.inv w' → w'.owner l = some t → D.inv (w'.give l) →
        F a (w'.give l)) (w'.take l t))
    (hgives : ∀ w l, D.gives w t l := by exact fun _ _ => trivial) : wp M D t op (Task.withLock l p) F w := by
  intro w' hr hi hf ht
  refine (wp_bind p _ _).2 (wp_mono ?_ (hu.wp_owner (h w' hr hi hf ht) (w'.take_owner_self l t)))
  intro a w₁ ⟨ho, hQ⟩ w₂ hr₂ hi₂
  have ho₂ := hr₂.1 l ho
  exact ⟨ho₂, hgives w₂ l, fun hg => hQ w₂ hr₂ hi₂ ho₂ hg⟩

/-- A task keeps a fact that its footprint cannot touch and that survives what the others do. -/
theorem Task.Within.wp {P : Req → Prop} {R : α → Prop} {F : World L σ → Prop} {p : Task Req Resp L α} (hp : p.Within P R)
    (hstable : ∀ w w', D.Expects t w w' → D.inv w' → F w → F w')
    (hallow : ∀ w r, P r → D.inv w → F w → D.allow w t op r)
    (hstep : ∀ w r e, P r → D.inv w → F w → F (w.setStore (M.exec t r e w.store).2)) (hF : F w) :
    wp M D t op p (fun a w => R a ∧ F w) w := by
  induction p generalizing w with
  | ret a => exact ⟨hp, hF⟩
  | call r k ih =>
    intro w' hr hi _
    have hF' := hstable w w' hr hi hF
    exact ⟨hallow w' r hp.1 hi hF', fun e _ => ih _ (hp.2 _ trivial) (hstep w' r e hp.1 hi hF')⟩
  | acquire l k => exact hp.1.elim
  | release l k => exact hp.1.elim

/-- A task that obeys a protocol, while the world stays in step with the state of the protocol. -/
theorem Task.Obeys.wp {A : Protocol Req Resp L Q} {R : Q → α → Prop} {K : Q → World L σ → Prop} {q : Q}
    {p : Task Req Resp L α} (hp : p.Obeys A R q)
    (hstable : ∀ q w w', D.Expects t w w' → D.inv w' → K q w → K q w')
    (hcall : ∀ q w r, A.may q r → D.inv w → K q w → D.assume w t op r → D.allow w t op r ∧
      ∀ e, D.inv (w.setStore (M.exec t r e w.store).2) →
        A.sees r (M.exec t r e w.store).1 ∧ K (A.next q r (M.exec t r e w.store).1) (w.setStore (M.exec t r e w.store).2))
    (htake : ∀ q w l, A.mayTake q l → D.inv w → w.owner l = none → K q w → K (A.take q l) (w.take l t))
    (hgive : ∀ q w l, A.mayGive q l → D.inv w → K q w → w.owner l = some t ∧ K (A.give q l) (w.give l)) (hK : K q w)
    (hgives : ∀ w l, D.gives w t l := by exact fun _ _ => trivial) :
    Conc.wp M D t op p (fun a w => ∃ q, K q w ∧ R q a) w := by
  induction p generalizing w q with
  | ret a => exact ⟨q, hK, hp⟩
  | call r k ih =>
    intro w' hr hi ha
    obtain ⟨hal, hnext⟩ := hcall q w' r hp.1 hi (hstable q w w' hr hi hK) ha
    exact ⟨hal, fun e hi' => ih _ (hp.2 _ (hnext e hi').1) (hnext e hi').2⟩
  | acquire l k ih => exact fun w' hr hi hf _ => ih hp.2 (htake q w' l hp.1 hi hf (hstable q w w' hr hi hK))
  | release l k ih =>
    intro w' hr hi
    obtain ⟨ho, hK'⟩ := hgive q w' l hp.1 hi (hstable q w w' hr hi hK)
    exact ⟨ho, hgives w' l, fun _ => ih hp.2 hK'⟩

/-- The world is in step with the lock that a task holds. -/
theorem Task.Obeys.wp_tracking {sees : (r : Req) → Resp r → Prop} {may : Q → Req → Prop} {next : Q → (r : Req) → Resp r → Q}
    {R : Q × Option L → α → Prop} {F : Q → σ → Prop} {q : Q} {l : Option L} {p : Task Req Resp L α}
    (hp : p.Obeys (.tracking sees may next) R (q, l))
    (hstable : ∀ q w w', D.Expects t w w' → D.inv w' → F q w.store → F q w'.store)
    (hcall : ∀ q w r, may q r → D.inv w → F q w.store → D.assume w t op r → D.allow w t op r ∧
      ∀ e, D.inv (w.setStore (M.exec t r e w.store).2) →
        sees r (M.exec t r e w.store).1 ∧ F (next q r (M.exec t r e w.store).1) (M.exec t r e w.store).2)
    (hF : F q w.store) (hl : ∀ l', l = some l' → w.owner l' = some t)
    (hgives : ∀ w l, D.gives w t l := by exact fun _ _ => trivial) :
    Conc.wp M D t op p (fun a w => ∃ q l, F q w.store ∧ R (q, l) a) w := by
  refine wp_mono ?_ (hp.wp (K := fun q w => F q.1 w.store ∧ ∀ l', q.2 = some l' → w.owner l' = some t) ?_ ?_ ?_ ?_ ⟨hF, hl⟩
    hgives)
  · rintro a w' ⟨⟨q, l⟩, ⟨hF, _⟩, hR⟩
    exact ⟨q, l, hF, hR⟩
  · exact fun q w w' hr hi h => ⟨hstable q.1 w w' hr hi h.1, fun l hl => hr.1 l (h.2 l hl)⟩
  · intro q w r hm hi h ha
    obtain ⟨hal, hnext⟩ := hcall q.1 w r hm hi h.1 ha
    exact ⟨hal, fun e hi' => ⟨(hnext e hi').1, (hnext e hi').2, h.2⟩⟩
  · rintro q w l hm hi hf ⟨h, _⟩
    refine ⟨h, ?_⟩
    rintro _ ⟨⟩
    exact w.take_owner_self l t
  · rintro q w l hm hi ⟨h, ho⟩
    exact ⟨ho l hm, h, nofun⟩

/-- A task keeps a fact about the store that no request of it touches and that survives what the others do. -/
theorem Task.Issues.wp {P : Req → Prop} {F : σ → Prop} {p : Task Req Resp L α} (hp : p.Issues P)
    (hstable : ∀ w w', D.Expects t w w' → D.inv w' → F w.store → F w'.store)
    (hallow : ∀ w r, P r → D.inv w → F w.store → D.assume w t op r → D.allow w t op r)
    (hstep : ∀ s r e, P r → F s → F (M.exec t r e s).2) (hF : F w.store)
    (hgives : ∀ w l, D.gives w t l := by exact fun _ _ => trivial) :
    Conc.wp M D t op p (fun _ w => F w.store) w := by
  have h : p.Obeys (.tracking (fun _ _ => True) (fun _ : Unit => P) fun _ _ _ => ()) (fun q _ => q = ((), none)) ((), none) :=
    hp.obeys fun r hr => ⟨hr, fun _ => rfl⟩
  refine wp_mono ?_ (h.wp_tracking (F := fun _ => F)
    (fun _ => hstable) (fun _ w r hr hi h ha => ⟨hallow w r hr hi h ha, fun e _ => ⟨trivial, hstep _ r e hr h⟩⟩) hF nofun
    hgives)
  rintro a w' ⟨_, _, h, _⟩
  exact h

/-- An assembled task keeps a fact that neither its requests nor its parts touch. -/
theorem Task.Built.wp {V : (r : Req) → Resp r → Prop} {P : Req → Prop} {S : Task Req Resp L γ → Prop} {R : α → Prop}
    {F : World L σ → Prop} {p : Task Req Resp L α} (hp : p.Built V P S R)
    (hstable : ∀ w w', D.Expects t w w' → D.inv w' → F w → F w')
    (hallow : ∀ w r, P r → D.inv w → F w → D.allow w t op r)
    (hsees : ∀ w r e, P r → D.inv w → F w → V r (M.exec t r e w.store).1)
    (hstep : ∀ w r e, P r → D.inv w → F w → F (w.setStore (M.exec t r e w.store).2))
    (hsub : ∀ w s, S s → F w → Conc.wp M D t op s (fun _ => F) w) (hF : F w) :
    Conc.wp M D t op p (fun a w => R a ∧ F w) w := by
  induction hp generalizing w with
  | ret ha => exact ⟨ha, hF⟩
  | @call r k hr _ ih =>
    intro w' he hi _
    have hF' := hstable w w' he hi hF
    exact ⟨hallow w' r hr hi hF', fun e _ => ih _ (hsees w' r e hr hi hF') (hstep w' r e hr hi hF')⟩
  | @sub s f hs _ ih => exact (wp_bind ..).2 (wp_mono (fun a w hF' => ih a hF') (hsub w s hs hF))

/-- A task between taking a lock and giving it back, when its result does not matter. -/
theorem wp_withLock_true {P : Req → Prop} {p : Task Req Resp L α} {l : L} (hu : p.Uses P)
    (h : ∀ w' : World L σ, D.inv (w'.take l t) → wp M D t op p (fun _ _ => True) (w'.take l t))
    (hgives : ∀ w l, D.gives w t l := by exact fun _ _ => trivial) :
    wp M D t op (Task.withLock l p) (fun _ _ => True) w :=
  wp_withLock hu (fun w' _ _ _ ht => wp_mono (fun _ _ _ _ _ _ _ _ => trivial) (h w' ht)) hgives

end Conc
