import Almond.Conc.Progress
import Almond.Lemmas.GuardedAux
import Almond.Lemmas.MaintenanceAux
import Almond.Lemmas.UploadsAux
import Almond.Sample
import Almond.Theorems.Candidates

/-! # Waiting for the mutation guards

No operation takes a guard while it holds one. -/

namespace Almond.Guards

open Conc FileStorage

variable {cfg : Config} {s : AppState} {ok : Server → Label Req Resp Str Op Report → Prop} {c : Server}

/-- Every operation takes one guard at a time and gives it back. -/
theorem program_balanced (cfg : Config) (op : Op) : ((machine cfg).body op).Balanced (Req.Foresees cfg.storage) none := by
  suffices h : (program cfg op).Balanced (Req.Foresees cfg.storage) none from h.traced
  have hpublishes : ∀ {target : Str → Prop} part, PublishesBlob cfg target part → part.Issues fun _ => True := by
    rintro target _ ⟨temp, publication, _, _, rfl⟩
    exact (publishBlob_places cfg temp publication).mono fun _ _ => trivial
  cases hmaintains : op.maintains with
  | true => exact (program_maintains hmaintains).balanced
  | false =>
    rcases Op.cases_of_not_maintains hmaintains with hget | hupload | rfl
    · obtain ⟨headers, head, filename, rfl⟩ := exists_get_of_isGet hget
      refine (program_discovers headers head filename).balanced ?_
      rintro _ ⟨sha256, _, m, _, rfl⟩
      exact (publishExistingMetadata_places cfg sha256 m).mono fun _ _ => trivial
    · exact (program_receives hupload).balanced hpublishes
    · exact (program_sweeps cfg).balanced hpublishes

/-- In every history the guards are held by running tasks, one each. -/
theorem balanced_of_history {ok : List (Server × Label Req Resp Str Op Report) → Server → Label Req Resp Str Op Report → Prop}
    {past : List (Server × Label Req Resp Str Op Report)} (hsessions : s.sessions.Each fun _ upload => upload.WellFormed cfg.storage)
    (h : History (machine cfg) ok (Server.idle s) past c) : c.Balanced (Req.Foresees cfg.storage) := by
  induction h with
  | start => exact Sys.balanced_idle fun _ => rfl
  | @step past c l c' h hok hs ih =>
    refine ih.step (program_balanced cfg) (fun t op r x hl => ?_) hs
    subst hl
    have hmem : (op, (⟨r, x⟩ : Task.Event Req Resp)) ∈ Task.record t ((c, .called t op r x) :: past) :=
      List.mem_filterMap.2 ⟨_, List.mem_cons_self, if_pos rfl⟩
    exact (Uploads.foreseen_of_history hsessions (h.step hok hs)).2 t _ hmem

/-- The server never deadlocks on its mutation guards: in every run a task can take its next step, or waits for a guard that another
running task holds, which can. Without new operations all tasks end, however they are scheduled and whatever the outside decides. -/
theorem never_deadlocks (hsessions : s.sessions.Each fun _ upload => upload.WellFormed cfg.storage)
    (h : Run (machine cfg) ok (Server.idle s) c) :
    (∀ t op p, c.tasks t = some (op, p) → c.Ready (machine cfg) t ∨ ∃ sha256 k holder, p = .acquire sha256 k ∧
      c.world.owner sha256 = some holder ∧ holder ≠ t ∧ c.Ready (machine cfg) holder) ∧
    c.Drains (machine cfg) := by
  obtain ⟨past, hpast⟩ := (h.mono fun _ _ _ => trivial : Run (machine cfg) (fun _ _ => True) (Server.idle s) c).exists_history
  refine ⟨fun t op p ht => (balanced_of_history hsessions hpast).progress ht, ?_⟩
  have hbalanced : ∀ c, (∃ past, History (machine cfg) (fun _ _ _ => True) (Server.idle s) past c) → c.Balanced (Req.Foresees cfg.storage) := by
    rintro c ⟨past, hpast⟩
    exact balanced_of_history hsessions hpast
  refine drains hbalanced ?_ ⟨past, hpast⟩
  rintro c l c' ⟨past, hpast⟩ hs
  exact ⟨_, hpast.step trivial hs⟩

/-- Whether the first task waits for the guard of the hash, which the second one holds. -/
def waits (c : Server) : Bool :=
  (c.world.owner Sample.hash = some 1) && (c.tasks 0).any fun x => match x.2 with
    | .acquire sha256 _ => sha256 = Sample.hash
    | _ => false

theorem fills_replay : (((machine Sample.config).replay (Server.idle Sample.started)
    ([.spawn Candidates.fill] ++ Sample.steps 0 7 ++ [.spawn Candidates.fill] ++ Sample.steps 1 8)).any fun p =>
      p.1.all (fun _ => true) && waits p.2) = true := by
  decide

/-- Two cache fills of one hash: the first one waits for the second one, which goes on. -/
theorem never_deadlocks_fills : ∃ c : Server, waits c = true ∧ ¬ c.Ready (machine Sample.config) 0 ∧ c.Ready (machine Sample.config) 1 ∧
    c.Drains (machine Sample.config) := by
  obtain ⟨c, hrun, hwaits⟩ := exists_run_of_replay (machine Sample.config) (Server.idle Sample.started) _ (fun _ _ => true) waits fills_replay
  obtain ⟨hprogress, hdrains⟩ := never_deadlocks (SessionState.each_empty _) hrun
  obtain ⟨howner, htask⟩ := Bool.and_eq_true_iff.1 hwaits
  obtain ⟨⟨op, p⟩, ht, hp⟩ := (Option.any_eq_true ..).1 htask
  dsimp only at hp
  split at hp
  · rename_i sha256 k
    obtain rfl : sha256 = Sample.hash := of_decide_eq_true hp
    have hstuck : ¬ c.Ready (machine Sample.config) 0 := by
      intro hready
      have h := hready Sample.calm
      simp [Machine.move, ht, of_decide_eq_true howner] at h
    refine ⟨c, hwaits, hstuck, ?_, hdrains⟩
    rcases hprogress 0 op _ ht with h | ⟨_, _, holder, heq, ho, _, h⟩
    · exact absurd h hstuck
    · cases heq
      obtain rfl := Option.some.inj ((of_decide_eq_true howner).symm.trans ho)
      exact h
  · cases hp

end Almond.Guards
