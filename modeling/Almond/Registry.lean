import Almond.Effects

/-! # Runs of the session registry

The registry on its own, with the tickets that its reservations handed out. A release and a commit consume a ticket, so they take
one to be issued; everything else can happen at any time, for any key. -/

namespace Almond

open Conc (Tid)

/-- The registry and the tickets that are out. -/
structure Registry where
  state : SessionState
  tickets : List (Tid × ChunkUploadKey)

namespace Registry

/-- The registry of a new process. -/
def empty : Registry := ⟨.empty, []⟩

/-- One operation of a request. -/
def exec (limits : SessionLimits) (g : Registry) (t : Tid) (now : Nat) (r : SessionReq) : Registry :=
  ⟨(r.exec limits t now g.state g.tickets).2.1, (r.exec limits t now g.state g.tickets).2.2⟩

/-- Whether a request has the ticket that an operation consumes. -/
def holdsTicket (g : Registry) (t : Tid) : SessionReq → Prop
  | .release key | .commit key _ _ => (t, key) ∈ g.tickets
  | _ => True

/-- The registries that can be reached by operations of any requests in any order, each of which meets a condition. -/
inductive Reachable (limits : SessionLimits) (ok : Registry → SessionReq → Prop) : Registry → Prop
  | empty : Reachable limits ok .empty
  | step {g : Registry} (h : Reachable limits ok g) (t : Tid) (now : Nat) (r : SessionReq) (ht : g.holdsTicket t r)
      (hok : ok g r) : Reachable limits ok (g.exec limits t now r)

/-- What holds initially and is preserved by every operation that meets the condition holds of every reachable registry. -/
theorem Reachable.invariant {limits : SessionLimits} {ok : Registry → SessionReq → Prop} {I : Registry → Prop} {g : Registry}
    (h : g.Reachable limits ok) (hempty : I .empty)
    (hstep : ∀ g t now r, I g → g.holdsTicket t r → ok g r → I (g.exec limits t now r)) : I g := by
  induction h with
  | empty => exact hempty
  | step _ t now r ht hok ih => exact hstep _ t now r ih ht hok

/-! ## The run of one session -/

/-- An operation that leaves the session of a key alone. -/
def Spares (key : ChunkUploadKey) : SessionReq → Prop
  | .commit k _ _ | .restore k _ => k ≠ key
  | .evictOlderThan _ => False
  | _ => True

/-- A run in which the chunks of one session are committed one after another, each under a reservation and all with the same
parameters, while anything happens to other sessions. -/
inductive Receives (limits : SessionLimits) (key : ChunkUploadKey) (params : SessionParams) (g : Registry) :
    List ChunkInfo → Registry → Prop
  | refl : Receives limits key params g [] g
  | chunk {g' : Registry} {chunks : List ChunkInfo} (h : Receives limits key params g chunks g') (t : Tid) (now : Nat)
      (chunk : ChunkInfo) (hr : g'.state.hasPending key = true) :
      Receives limits key params g (chunks ++ [chunk]) (g'.exec limits t now (.commit key params chunk))
  | other {g' : Registry} {chunks : List ChunkInfo} (h : Receives limits key params g chunks g') (t : Tid) (now : Nat)
      (r : SessionReq) (hs : Spares key r) : Receives limits key params g chunks (g'.exec limits t now r)

end Registry

end Almond
