import Almond.Lemmas.QuarantineAux

/-! # A quarantined blob stays away

On a server without a bucket the quarantine is for good: nothing takes a file out of it, and every publication looks into it under
the guard of its hash. -/

namespace Almond.Quarantine

open Conc FileStorage

section

variable {cfg : Config} {root : Path} {s : AppState} {sha256 : Str} {c c' : Server} {l : Label Req Resp Str Op Report}

/-- Nothing is excluded in the runs under consideration. -/
theorem ok_discipline (c : Server) (l : Label Req Resp Str Op Report) : (discipline cfg).ok c l := by
  cases l <;> exact trivial

/-- A banned hash stays banned, also over a restart. -/
theorem bans_step (hlayout : cfg.storage = .new root) (hlocal : cfg.nativeS3 = false)
    (hc : Sound (machine cfg) (discipline cfg) (Finishes cfg.storage) c) (h : Bans cfg.storage c.world.store.disk sha256)
    (hs : Step (machine cfg) c l c') : Bans cfg.storage c'.world.store.disk sha256 := by
  cases hs with
  | call e ht => exact bans_exec hlayout hc.1 (hc.allow (fits hlayout hlocal) trivial (.call e ht)) h
  | drop ht =>
    obtain ⟨name, hm, hf⟩ := h
    exact ⟨name, hm, (hasFile_discard hlayout hc.1 name).trans hf⟩
  | _ => exact h

/-- A hash that was quarantined stays without an entry until the server is restarted. -/
theorem removed_step (hlayout : cfg.storage = .new root) (hlocal : cfg.nativeS3 = false)
    (hc : Sound (machine cfg) (discipline cfg) (Finishes cfg.storage) c) (h : Removed cfg.storage sha256 c.world.store)
    (hs : Step (machine cfg) c l c') (hl : l ≠ .crashed) : Removed cfg.storage sha256 c'.world.store := by
  cases hs with
  | @call t op r k e ht =>
    have hallow := hc.allow (fits hlayout hlocal) trivial (.call e ht)
    exact h.stable (rely_of_allowed hlayout hc.1 hallow (Nat.succ_ne_self t))
  | @drop t op p ht => exact h.stable (((fits hlayout hlocal).drop c.world t op hc.1 trivial).2 (t + 1) (Nat.succ_ne_self t))
  | tick e => exact ⟨h.banned, h.up, h.gone⟩
  | crash => exact absurd rfl hl
  | _ => exact h

/-- After a quarantine the hash is banned for good: in whatever the server does later, dropped requests, failing operations and
restarts included, no task makes an entry of the hash visible. Until the server is restarted the hash has no entry. -/
theorem quarantine_is_permanent (hlayout : cfg.storage = .new root) (hlocal : cfg.nativeS3 = false) (hclean : Clean cfg.storage s)
    {c c₁ c₂ : Server} {t : Tid} {expected : Option FileMetadata} {past : List (Task.Event Req Resp)}
    (hrun : Run (machine cfg) (fun _ _ => True) (Server.idle s) c)
    (hremoved : Step (machine cfg) c (.returned t (.remove sha256 .quarantined expected) (past, .removed (.ok true))) c₁)
    (hlater : Run (machine cfg) (fun _ _ => True) c₁ c₂) :
    Bans cfg.storage c₂.world.store.disk sha256 ∧
    (∀ t op m x c₃, ¬ Step (machine cfg) c₂ (.called t op (.index (.publish sha256 m)) x) c₃) ∧
    (Run (machine cfg) (fun _ l => l ≠ .crashed) c₁ c₂ → c₂.world.store.index.get sha256 = none) := by
  have hF := fits hlayout hlocal
  have hidle : Sound (machine cfg) (discipline cfg) (Finishes cfg.storage) (Server.idle s) := sound_empty hclean
  have hc := hidle.run hF (hrun.mono fun c l _ => ok_discipline c l)
  have hc₁ := hc.step hF (ok_discipline c _) hremoved
  have hgone : Removed cfg.storage sha256 c₁.world.store := by
    have hpost := hc.returned hremoved sha256 expected rfl rfl
    cases hremoved
    exact hpost
  have hlast : Sound (machine cfg) (discipline cfg) (Finishes cfg.storage) c₂ ∧ Bans cfg.storage c₂.world.store.disk sha256 :=
    hlater.invariant (I := fun c => Sound (machine cfg) (discipline cfg) (Finishes cfg.storage) c ∧ Bans cfg.storage c.world.store.disk sha256)
      (fun c l c' h _ hs => ⟨h.1.step hF (ok_discipline c l) hs, bans_step hlayout hlocal h.1 h.2 hs⟩) ⟨hc₁, hgone.banned⟩
  refine ⟨hlast.2, fun t op m x c₃ hs => ?_, fun huncrashed => ?_⟩
  · exact (hlast.1.allow hF trivial hs).2 hlast.2
  · have huncrashed := huncrashed.invariant (I := fun c => Sound (machine cfg) (discipline cfg) (Finishes cfg.storage) c ∧
      Removed cfg.storage sha256 c.world.store)
      (fun c l c' h hl hs => ⟨h.1.step hF (ok_discipline c l) hs, removed_step hlayout hlocal h.1 h.2 hs hl⟩) ⟨hc₁, hgone⟩
    exact huncrashed.2.gone

end

/-! ## A cache fill after a quarantine -/

/-- A small server without a bucket. -/
def bucketless : Config :=
  { Sample.config with nativeS3 := false }

/-- Whether a step ends a quarantine of the hash. -/
def quarantines : Label Req Resp Str Op Report → Bool
  | .returned _ (.remove sha256 .quarantined none) (_, .removed (.ok true)) => sha256 = Sample.hash
  | _ => false

/-- Whether a step is no crash. -/
def lives : Label Req Resp Str Op Report → Bool
  | .crashed => false
  | _ => true

/-- Whether a server has started three tasks, and the third one is done. -/
def refilled (c : Server) : Bool :=
  c.world.next = 3 && (c.tasks 2).isNone

/-- Whether the next step of the second task ends a quarantine, and another cache fill runs to its end after it. -/
def refills (c : Server) : Bool :=
  ((machine bucketless).move c (.step 1 Sample.calm)).any fun q =>
    quarantines q.1 && ((machine bucketless).replay q.2 ([.spawn Candidates.fill] ++ Sample.steps 2 13)).any fun p =>
      p.1.all (fun x => lives x.2) && refilled p.2

theorem refills_replay : (((machine bucketless).replay (Server.idle Sample.started)
    ([.spawn Candidates.fill] ++ Sample.steps 0 21 ++ [.spawn (.remove Sample.hash .quarantined none)] ++ Sample.steps 1 6)).any fun p =>
      p.1.all (fun _ => true) && refills p.2) = true := by
  decide

/-- A new server is clean. -/
theorem clean_started : Clean bucketless.storage Sample.started where
  sessions := SessionState.each_empty _
  temps := nofun
  entries _ _ h := nomatch h
  superseded := nofun
  directory _ h := nomatch h

/-- A cache fill, a quarantine of the copy and another cache fill leave the hash banned and without an entry. -/
theorem quarantine_is_permanent_refilled : ∃ c : Server, refilled c = true ∧
    Run (machine bucketless) (fun _ _ => True) (Server.idle Sample.started) c ∧ Bans bucketless.storage c.world.store.disk Sample.hash ∧
    c.world.store.index.get Sample.hash = none := by
  obtain ⟨c, hrun, hrefills⟩ := exists_run_of_replay (machine bucketless) (Server.idle Sample.started) _ (fun _ _ => true) refills
    refills_replay
  obtain ⟨⟨l, c₁⟩, hmove, hq⟩ := (Option.any_eq_true ..).1 hrefills
  obtain ⟨hquarantines, hlater⟩ := Bool.and_eq_true_iff.1 hq
  obtain ⟨c₂, hrun₂, hrefilled⟩ := exists_run_of_replay (machine bucketless) c₁ _ (fun _ l => lives l) refilled hlater
  have hs : Step (machine bucketless) c l c₁ := step_of_move hmove
  have hall := hrun.mono fun _ _ _ => trivial
  have hall₂ := hrun₂.mono fun _ _ _ => trivial
  dsimp only at hquarantines
  unfold quarantines at hquarantines
  split at hquarantines
  · obtain rfl := of_decide_eq_true hquarantines
    have h := quarantine_is_permanent rfl rfl clean_started hall hs hall₂
    refine ⟨c₂, hrefilled, (hall.tail trivial hs).trans hall₂, h.1, h.2.2 (hrun₂.mono fun _ l hl hcrash => ?_)⟩
    subst hcrash
    nomatch hl
  · nomatch hquarantines

end Almond.Quarantine
