import Almond.Lemmas.SynchronizationAux
import Almond.Theorems.Candidates

/-! # The merge of a listing spares local copies -/

namespace Almond.Synchronization

open Conc

/-- The steps of a server. -/
abbrev Past := List (Server × Label Req Resp Str Op Report)

variable {cfg : Config} {s : AppState} {past : Past} {c c' : Server}
  {ok : Past → Server → Label Req Resp Str Op Report → Prop}

/-- While the first operation of a process has not opened the server, it is the only one. -/
def Starting (past : Past) (c : Server) : Prop :=
  ∀ t p, c.tasks t = some (.boot, p) → Closed ((Task.record t past).map (·.2)) →
    c.world.store.up = false ∧ ∀ t' x, c.tasks t' = some x → t' = t

/-- A request of a task is one that its operation may make. -/
theorem may_of_task (hsessions : s.sessions.Each fun _ upload => upload.WellFormed cfg.storage)
    (h : History (machine cfg) ok (Server.idle s) past c) {t : Tid} {op : Op} {p : Async Report} (ht : c.tasks t = some (op, p)) :
    p.Obeys (Merging cfg op) (fun _ _ => True) ((Task.record t past).map (·.2)) := by
  obtain ⟨es, hes, hobeys⟩ := h.obeys (fun op => program_obeys cfg op) (Uploads.foreseen_of_history hsessions h).2 ht
  have hrecord : (Task.record t past).map (·.2) = es := by
    rw [hes, List.map_map]
    exact List.map_id _
  exact hrecord ▸ hobeys

/-- Only opening the server changes whether it is open. -/
theorem up_exec {t : Tid} {r : Req} (hr : r ≠ .ready) (e : Env) (s : AppState) : (exec cfg t r e s).2.up = s.up := by
  cases r with
  | ready => exact absurd rfl hr
  | receiveToken token =>
    simp only [exec]
    split <;> rfl
  | dropTemp p =>
    simp only [exec]
    split <;> rfl
  | _ => rfl

/-- In every history the first operation of a process is alone until it has opened the server. -/
theorem starting_of_history (h : History (machine cfg) ok (Server.idle s) past c) : Starting past c := by
  induction h with
  | start => rintro _ _ ⟨⟩
  | @step past c l c' h _ hs ih =>
    have hsame : ∀ {c' : Server} {l : Label Req Resp Str Op Report}, (∀ t, Task.record t ((c, l) :: past) = Task.record t past) →
        c'.world.store.up = c.world.store.up → (∀ t x, c'.tasks t = some x → ∃ p, c.tasks t = some (x.1, p)) →
          Starting ((c, l) :: past) c' := by
      intro c' l hrecord hup htasks t p hp hclosed
      obtain ⟨p₀, hp₀⟩ := htasks t _ hp
      rw [hrecord] at hclosed
      obtain ⟨hdown, honly⟩ := ih t p₀ hp₀ hclosed
      refine ⟨hup.trans hdown, fun t' x hx => ?_⟩
      obtain ⟨p', hp'⟩ := htasks t' x hx
      exact honly t' _ hp'
    have hput : ∀ {t : Tid} {op : Op} {p₀ p : Async Report} {w : World Str AppState}, c.tasks t = some (op, p₀) →
        ∀ t' x, (c.put t op p w).tasks t' = some x → ∃ p', c.tasks t' = some (x.1, p') := by
      intro t op p₀ p w ht t' x hx
      by_cases heq : t' = t
      · subst heq
        cases (Function.update_self ..).symm.trans hx
        exact ⟨p₀, ht⟩
      · exact ⟨x.2, (Function.update_of_ne heq ..).symm.trans hx⟩
    cases hs with
    | @spawn op he =>
      intro t p hp hclosed
      have hup : c.world.store.up = true := by
        cases op <;> simp_all [machine, enabled]
      by_cases heq : t = c.world.next
      · subst heq
        cases (Function.update_self ..).symm.trans hp
        simp [machine, enabled] at he
      · have hold := (Function.update_of_ne heq ..).symm.trans hp
        obtain ⟨hdown, _⟩ := ih t p hold hclosed
        cases hdown.symm.trans hup
    | @call t₀ op r k e ht₀ =>
      intro t p hp hclosed
      by_cases heq : t = t₀
      · subst heq
        cases (Function.update_self ..).symm.trans hp
        have hrecord : Task.record t ((c, Label.called t .boot r ((machine cfg).exec t r e c.world.store).1) :: past) =
            (.boot, ⟨r, ((machine cfg).exec t r e c.world.store).1⟩) :: Task.record t past := List.filterMap_cons_some (if_pos rfl)
        rw [hrecord, List.map_cons] at hclosed
        have hr : r ≠ .ready := hclosed _ List.mem_cons_self
        obtain ⟨hdown, honly⟩ := ih t _ ht₀ fun e he => hclosed e (List.mem_cons_of_mem _ he)
        refine ⟨(up_exec hr e _).trans hdown, fun t' x hx => ?_⟩
        obtain ⟨p', hp'⟩ := hput ht₀ t' x hx
        exact honly t' _ hp'
      · have hold := (Function.update_of_ne heq ..).symm.trans hp
        have hrecord : Task.record t ((c, Label.called t₀ op r ((machine cfg).exec t₀ r e c.world.store).1) :: past) =
            Task.record t past := List.filterMap_cons_none (if_neg (Ne.symm heq))
        rw [hrecord] at hclosed
        exact absurd ((ih t p hold hclosed).2 t₀ _ ht₀).symm heq
    | acquire ht _ => exact hsame (fun _ => rfl) rfl (hput ht)
    | release ht => exact hsame (fun _ => rfl) rfl (hput ht)
    | finish ht => exact hsame (fun _ => rfl) rfl fun t x hx => ⟨x.2, Sys.tasks_of_erase hx⟩
    | drop ht => exact hsame (fun _ => rfl) rfl fun t x hx => ⟨x.2, Sys.tasks_of_erase hx⟩
    | tick e => exact hsame (fun _ => rfl) rfl fun t x hx => ⟨x.2, hx⟩
    | crash =>
      intro t p hp _
      have honly :
          ∀ t' x, (c.reboot .boot ((machine cfg).body .boot) ((c.world.restart (crash c.world.store)).allocate)).tasks t' = some x →
          t' = c.world.next := by
        intro t' x hx
        by_contra hne
        simp only [Sys.reboot] at hx
        rw [Function.update_of_ne hne] at hx
        cases hx
      refine ⟨rfl, fun t' x hx => ?_⟩
      rw [honly t' x hx, honly t _ hp]

/-! ## Copies that were published after the check -/

/-- Whether a step is a request of a task. -/
def requestedBy (t : Tid) : Label Req Resp Str Op Report → Bool
  | .called t' _ _ _ => t' = t
  | _ => false

/-- The steps since the latest request of a task. -/
def sinceLast (t : Tid) (past : Past) : Past :=
  past.takeWhile fun x => !requestedBy t x.2

/-- A step that is no request of a task leaves its record. -/
theorem record_of_not_requestedBy {t : Tid} {l : Label Req Resp Str Op Report} (h : requestedBy t l = false) :
    Task.record t ((c, l) :: past) = Task.record t past := by
  cases l with
  | called t' op r x => exact List.filterMap_cons_none (if_neg (of_decide_eq_false h))
  | _ => rfl

/-- A step that is no request of a task comes after its latest one. -/
theorem sinceLast_of_not_requestedBy {t : Tid} {l : Label Req Resp Str Op Report} (h : requestedBy t l = false) :
    sinceLast t ((c, l) :: past) = (c, l) :: sinceLast t past :=
  List.takeWhile_cons_of_pos (by simp [h])

/-- A request that finds a hash without an entry leaves it without one. -/
theorem get_of_unseen {t : Tid} {r : Req} {e : Env} {op op' : Op} {sha256 : Str} {y : Resp r × AppState}
    (hexec : exec cfg t r e s = y) (h : some (op, (⟨r, y.1⟩ : Task.Event Req Resp)) = some (op', ⟨.index (.contains sha256), false⟩)) :
    y.2.index.get sha256 = none := by
  obtain ⟨x, s'⟩ := y
  cases h
  simp only [exec, IndexReq.exec, BlobIndex.contains, Prod.mk.injEq, Option.isSome_eq_false_iff, Option.isNone_iff_eq_none] at hexec
  exact hexec.2 ▸ hexec.1

/-- Whether a step published an entry for a hash. -/
def publishes (sha256 : Str) (m : FileMetadata) : Label Req Resp Str Op Report → Bool
  | .called _ _ (.index (.publish key m')) (.published _) => key = sha256 && m' = m
  | _ => false

/-- A step that gives a hash a local entry publishes it, or rebuilds the index. -/
theorem publishes_of_installs {t : Tid} {op : Op} {r : Req} {x : Resp r} {sha256 : Str} {m : FileMetadata}
    (h : Candidates.installs sha256 (.called t op r x) = some m) (hlocal : Candidates.isLocal m = true)
    (hmay : May cfg op (Task.record t past |>.map (·.2)) r) :
    publishes sha256 m (.called t op r x) = true ∨ op = .boot ∧ Closed ((Task.record t past).map (·.2)) := by
  cases r with
  | index r =>
    cases r with
    | publish key m' =>
      cases x with
      | published displaced =>
        simp only [Candidates.installs] at h
        split at h
        · cases h
          left
          simp [publishes, *]
        · nomatch h
      | retained existing => nomatch h
    | insert key m' =>
      obtain ⟨k, hk⟩ := hmay.2.location
      simp only [Candidates.installs] at h
      split at h
      · cases h
        simp [Candidates.isLocal, hk] at hlocal
      · nomatch h
    | replace map => exact .inr hmay
    | _ => nomatch h
  | _ => nomatch h

/-- A local copy of a hash that the latest request of a task found without an entry was published since. -/
def Fresh (past : Past) (c : Server) : Prop :=
  ∀ t x op sha256, c.tasks t = some x → (Task.record t past).head? = some (op, ⟨.index (.contains sha256), false⟩) →
    ∀ m, c.world.store.index.get sha256 = some m → Candidates.isLocal m = true →
      ∃ y ∈ sinceLast t past, publishes sha256 m y.2 = true

/-- A local copy that appeared after a check was published. -/
theorem fresh_of_history (hsessions : s.sessions.Each fun _ upload => upload.WellFormed cfg.storage)
    (h : History (machine cfg) ok (Server.idle s) past c) : Fresh past c := by
  induction h with
  | start =>
    intro t x op sha256 hx
    nomatch hx
  | @step past c l c' h hok hs ih =>
    have hsame : ∀ {c' : Server} {l : Label Req Resp Str Op Report}, (∀ t, requestedBy t l = false) →
        c'.world.store.index = c.world.store.index → (∀ t x, c'.tasks t = some x → ∃ x', c.tasks t = some x') →
          Fresh ((c, l) :: past) c' := by
      intro c' l hl hindex htasks t x op sha256 hx hhead m hm hlocal
      obtain ⟨x', hx'⟩ := htasks t x hx
      rw [record_of_not_requestedBy (hl t)] at hhead
      rw [hindex] at hm
      obtain ⟨y, hy, hpublishes⟩ := ih t x' op sha256 hx' hhead m hm hlocal
      exact ⟨y, sinceLast_of_not_requestedBy (hl t) ▸ List.mem_cons_of_mem _ hy, hpublishes⟩
    have hput : ∀ {t₀ : Tid} {op₀ : Op} {p₀ p : Async Report} {w : World Str AppState}, c.tasks t₀ = some (op₀, p₀) →
        ∀ t x, (c.put t₀ op₀ p w).tasks t = some x → ∃ x', c.tasks t = some x' := by
      intro t₀ op₀ p₀ p w ht₀ t x hx
      by_cases heq : t = t₀
      · exact ⟨_, heq ▸ ht₀⟩
      · exact ⟨x, (Function.update_of_ne heq ..).symm.trans hx⟩
    cases hs with
    | @spawn op₀ he =>
      intro t x op sha256 hx hhead m hm hlocal
      by_cases heq : t = c.world.next
      · subst heq
        have hnone : Task.record c.world.next ((c, Label.spawned c.world.next op₀) :: past) = [] := h.stands.2 _ (Nat.le_refl _)
        rw [hnone] at hhead
        nomatch hhead
      · obtain ⟨y, hy, hpublishes⟩ := ih t x op sha256 ((Function.update_of_ne heq ..).symm.trans hx) hhead m hm hlocal
        exact ⟨y, List.mem_cons_of_mem _ hy, hpublishes⟩
    | @call t₀ op₀ r k e ht₀ =>
      intro t x op sha256 hx hhead m hm hlocal
      by_cases heq : t = t₀
      · subst heq
        have hrecord : Task.record t ((c, Label.called t op₀ r ((machine cfg).exec t r e c.world.store).1) :: past) =
            (op₀, ⟨r, ((machine cfg).exec t r e c.world.store).1⟩) :: Task.record t past := List.filterMap_cons_some (if_pos rfl)
        rw [hrecord] at hhead
        exact nomatch (get_of_unseen rfl hhead).symm.trans hm
      · have hold := (Function.update_of_ne heq ..).symm.trans hx
        have hother : requestedBy t (Label.called t₀ op₀ r ((machine cfg).exec t₀ r e c.world.store).1) = false :=
          decide_eq_false (Ne.symm heq)
        rw [record_of_not_requestedBy hother] at hhead
        have hmay : May cfg op₀ ((Task.record t₀ past).map (·.2)) r := (may_of_task hsessions h ht₀).1
        rw [sinceLast_of_not_requestedBy hother]
        rcases Candidates.get_exec_cases hm with hm | hm
        · obtain ⟨y, hy, hpublishes⟩ := ih t x op sha256 hold hhead m hm hlocal
          exact ⟨y, List.mem_cons_of_mem _ hy, hpublishes⟩
        · rcases publishes_of_installs hm hlocal hmay with hpublishes | ⟨rfl, hclosed⟩
          · exact ⟨_, List.mem_cons_self, hpublishes⟩
          · exact absurd ((starting_of_history h t₀ _ ht₀ hclosed).2 t x hold) heq
    | acquire ht _ => exact hsame (fun _ => rfl) rfl (hput ht)
    | release ht => exact hsame (fun _ => rfl) rfl (hput ht)
    | finish ht => exact hsame (fun _ => rfl) rfl fun t x hx => ⟨x, Sys.tasks_of_erase hx⟩
    | drop ht => exact hsame (fun _ => rfl) rfl fun t x hx => ⟨x, Sys.tasks_of_erase hx⟩
    | tick e => exact hsame (fun _ => rfl) rfl fun t x hx => ⟨x, hx⟩
    | crash =>
      intro t x op sha256 hx hhead m hm
      nomatch hm

/-- What a task did last separates the steps since from those before. -/
theorem eq_sinceLast_append {t : Tid} {op : Op} {e : Task.Event Req Resp} (h : (Task.record t past).head? = some (op, e)) :
    ∃ c₀ earlier, past = sinceLast t past ++ (c₀, .called t op e.1 e.2) :: earlier := by
  induction past with
  | nil => nomatch h
  | cons y past ih =>
    obtain ⟨c, l⟩ := y
    cases hl : requestedBy t l with
    | false =>
      rw [record_of_not_requestedBy hl] at h
      rw [sinceLast_of_not_requestedBy hl]
      obtain ⟨c₀, earlier, heq⟩ := ih h
      exact ⟨c₀, earlier, congrArg ((c, l) :: ·) heq⟩
    | true =>
      cases l with
      | called t' op' r x =>
        obtain rfl : t' = t := of_decide_eq_true hl
        have hrecord : Task.record t' ((c, .called t' op' r x) :: past) = (op', ⟨r, x⟩) :: Task.record t' past :=
          List.filterMap_cons_some (if_pos rfl)
        rw [hrecord] at h
        obtain ⟨rfl, rfl⟩ := Prod.mk.inj (Option.some.inj h)
        have hnone : sinceLast t' ((c, .called t' op' r x) :: past) = [] := List.takeWhile_cons_of_neg (by simp [hl])
        exact ⟨c, past, by rw [hnone, List.nil_append]⟩
      | _ => nomatch hl

/-- A merge inserts entries of objects that its own listing has returned. An entry that it inserts takes the place of a local copy only
when the copy was published after the merge found the hash without an entry. -/
theorem merge_spares_local (hsessions : s.sessions.Each fun _ upload => upload.WellFormed cfg.storage)
    (h : History (machine cfg) ok (Server.idle s) past c) {t : Tid} {op : Op} {sha256 : Str} {m : FileMetadata} {x : Unit}
    (hs : Step (machine cfg) c (.called t op (.index (.insert sha256 m)) x) c') :
    (∃ c₁ page objects, (c₁, .called t op (.s3 (.listPage [] page)) (.ok objects)) ∈ past ∧
      (sha256, m) ∈ NativeStorage.pageEntries cfg.libs objects) ∧
    Candidates.isLocal m = false ∧ ∃ c₀ earlier,
      past = sinceLast t past ++ (c₀, .called t op (.index (.contains sha256)) false) :: earlier ∧
      ∀ copy, c.world.store.index.get sha256 = some copy → Candidates.isLocal copy = true →
        ∃ y ∈ sinceLast t past, publishes sha256 copy y.2 = true := by
  cases hs with
  | @call _ _ _ k e ht =>
    obtain ⟨⟨earlier, hearlier⟩, hlisted⟩ := (may_of_task hsessions h ht).1
    obtain ⟨_, es, hes, _⟩ := h.stands.1 t op _ ht
    have hmap : (Task.record t past).map (·.2) = es := by
      rw [hes, List.map_map]
      exact List.map_id es
    rw [hmap] at hearlier hlisted
    refine ⟨?_, ?_, ?_⟩
    · obtain ⟨page, objects, hmem, hentry⟩ := hlisted
      obtain ⟨c₁, hc₁⟩ := Task.mem_record (hes ▸ List.mem_map_of_mem hmem)
      exact ⟨c₁, page, objects, hc₁, hentry⟩
    · obtain ⟨key, hkey⟩ := hlisted.location
      simp [Candidates.isLocal, hkey]
    · have hhead : (Task.record t past).head? = some (op, ⟨.index (.contains sha256), false⟩) := by
        rw [hes, hearlier]
        rfl
      obtain ⟨c₀, before, heq⟩ := eq_sinceLast_append hhead
      exact ⟨c₀, before, heq, fun copy hcopy hlocal => fresh_of_history hsessions h t _ op sha256 ht hhead copy hcopy hlocal⟩

/-- A synchronization that a cache fill overtakes: it found the hash without an entry, the copy was published, and the synchronization
is about to insert the object. -/
def overtaken : List (Move Env Op) :=
  .spawn .syncIndex :: Sample.steps 0 3 ++ .spawn Candidates.fill :: Sample.steps 1 20

/-- What the first task is about to insert for the hash. -/
def inserting (c : Server) : Option FileMetadata :=
  (c.tasks 0).bind fun x => match x.2 with
    | .call (.index (.insert key m)) _ => if key = Sample.hash then some m else none
    | _ => none

/-- Whether the first task is about to insert an entry for the hash, which has a local copy. -/
def races (c : Server) : Bool :=
  (inserting c).isSome && (c.world.store.index.get Sample.hash).any Candidates.isLocal

theorem overtaken_races : (((machine Sample.config).replay (Server.idle Sample.stocked) overtaken).any fun p =>
    p.1.all (fun _ => true) && races p.2) = true := by
  decide

/-- What is about to be inserted is inserted by the next step. -/
theorem step_of_inserting {c : Server} {m : FileMetadata} (h : inserting c = some m) :
    ∃ op c', Step (machine cfg) c (.called 0 op (.index (.insert Sample.hash m)) ()) c' := by
  obtain ⟨⟨op, p⟩, ht, hp⟩ := Option.bind_eq_some_iff.1 h
  dsimp only at hp
  split at hp
  · rename_i key m' k
    split at hp
    · rename_i hkey
      obtain rfl : m' = m := Option.some.inj hp
      subst hkey
      exact ⟨op, _, Step.call (M := machine cfg) Sample.calm ht⟩
    · cases hp
  · cases hp

/-- A synchronization that a cache fill overtakes displaces the copy, which was published since. -/
theorem merge_spares_local_overtaken :
    ∃ (past : Past) (c : Server) (copy : FileMetadata), c.world.store.index.get Sample.hash = some copy ∧ Candidates.isLocal copy = true ∧
      ∃ y ∈ sinceLast 0 past, publishes Sample.hash copy y.2 = true := by
  obtain ⟨c, hrun, hraces⟩ := exists_run_of_replay (machine Sample.config) (Server.idle Sample.stocked) overtaken (fun _ _ => true) races
    overtaken_races
  obtain ⟨hinserting, hcopy⟩ := Bool.and_eq_true_iff.1 hraces
  obtain ⟨m, hm⟩ := Option.isSome_iff_exists.1 hinserting
  obtain ⟨copy, hget, hlocal⟩ := (Option.any_eq_true ..).1 hcopy
  obtain ⟨past, hpast⟩ := hrun.exists_history
  obtain ⟨op, c', hs⟩ : ∃ op c', Step (machine Sample.config) c _ c' := step_of_inserting hm
  obtain ⟨_, _, _, _, _, hspared⟩ := merge_spares_local (SessionState.each_empty _) hpast hs
  exact ⟨past, c, copy, hget, hlocal, hspared copy hget hlocal⟩

end Almond.Synchronization
