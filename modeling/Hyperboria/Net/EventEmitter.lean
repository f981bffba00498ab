/-
`net/EventEmitter.c`, what a pathfinder is sent: events of the core go to every pathfinder that is
connected, without the number of a pathfinder that comes after the event number inside the core. The
answer to `PFChan_Pathfinder_PATHFINDERS` does not take that way. It has the number still in it, and
it tells of the pathfinder that asks, once for each that is connected.
-/
import Hyperboria.Message

namespace Hyperboria.EventEmitter

open Message (bigEndian32)

/-- `Pathfinder_state_*`. -/
inductive PathfinderState where
  | DISCONNECTED
  | CONNECTED
  | ERROR
deriving DecidableEq

/-- `struct Pathfinder`. -/
structure Pathfinder where
  userAgent : Vector UInt8 64
  superiority : BitVec 32
  state : PathfinderState
  pathfinderId : BitVec 16
  bytesSinceLastPing : Nat
deriving DecidableEq

def PING_MAGIC : BitVec 32 := 0x01234567

/-- `PFChan_Core_PATHFINDER`. -/
def PATHFINDER : BitVec 32 := 1025

/-- `PFChan_Core_PING`. -/
def PING : BitVec 32 := 1035

/-- `sendToPathfinder`: the messages that come to the interface of the pathfinder. -/
def sendToPathfinder (msg : List UInt8) (pf : Pathfinder) : List (List UInt8) × Pathfinder :=
  if pf.state ≠ .CONNECTED then ([], pf)
  else
    let ping :=
      if pf.bytesSinceLastPing < 8192 ∧ pf.bytesSinceLastPing + msg.length ≥ 8192 then
        [bigEndian32 PING ++ bigEndian32 PING_MAGIC ++ bigEndian32 (.ofNat 32 pf.bytesSinceLastPing)]
      else []
    (ping ++ [msg], { pf with bytesSinceLastPing := (pf.bytesSinceLastPing + msg.length) % 2 ^ 32 })

/-- What `incomingFromCore` sends on: the event number is taken off, then the number of the pathfinder, and
the event number is put back. -/
def fromCore (msg : List UInt8) : List UInt8 := msg.take 4 ++ msg.drop 8

/-- `pathfinderMsg`. -/
def pathfinderMsg (ev : BitVec 32) (pf : Pathfinder) : List UInt8 :=
  bigEndian32 ev ++ bigEndian32 0xffffffff ++ bigEndian32 pf.superiority ++
    bigEndian32 (pf.pathfinderId.setWidth 32) ++ pf.userAgent.toList

/-- The loop of `handleFromPathfinder` for `PFChan_Pathfinder_PATHFINDERS`, asked by `pf`. -/
def listPathfinders (pf : Pathfinder) : List (Option Pathfinder) → List (List UInt8) × Pathfinder
  | [] => ([], pf)
  | none :: rest => listPathfinders pf rest
  | some xpf :: rest =>
    if xpf.state ≠ .CONNECTED then listPathfinders pf rest
    else
      let (sent, pf) := sendToPathfinder (pathfinderMsg PATHFINDER pf) pf
      let (more, pf) := listPathfinders pf rest
      (sent ++ more, pf)

/-- The messages that are not pings. -/
def answers (sent : List (List UInt8)) : List (List UInt8) := sent.filter fun msg => msg.take 4 ≠ bigEndian32 PING

/-- One event for each pathfinder that is connected, as the core sends its events. -/
def listing (pathfinders : List (Option Pathfinder)) : List (List UInt8) :=
  pathfinders.filterMap fun xpf =>
    (xpf.filter fun xpf => xpf.state = .CONNECTED).map fun xpf => fromCore (pathfinderMsg PATHFINDER xpf)

variable {pf : Pathfinder} {pathfinders : List (Option Pathfinder)} {msg sent : List UInt8}

theorem mem_sendToPathfinder (h : sent ∈ (sendToPathfinder msg pf).1) : sent = msg ∨ sent.take 4 = bigEndian32 PING := by
  unfold sendToPathfinder at h
  split at h
  · cases h
  rcases List.mem_append.mp h with h | h
  · split at h
    · exact .inr (List.mem_singleton.mp h ▸ rfl)
    · cases h
  · exact .inl (List.mem_singleton.mp h)

theorem mem_listPathfinders (h : sent ∈ (listPathfinders pf pathfinders).1) :
    sent.length = 80 ∨ sent.take 4 = bigEndian32 PING := by
  induction pathfinders generalizing pf with
  | nil => cases h
  | cons xpf rest ih =>
    cases xpf with
    | none => exact ih h
    | some xpf =>
      unfold listPathfinders at h
      split at h
      · exact ih h
      rcases List.mem_append.mp h with h | h
      · refine (mem_sendToPathfinder h).imp_left fun heq => ?_
        simp [heq, pathfinderMsg, bigEndian32]
      · exact ih h

/-- No request of a pathfinder that is connected is answered with the listing. -/
theorem listPathfinders_not_listing (hpf : some pf ∈ pathfinders) (hstate : pf.state = .CONNECTED) :
    ¬ (answers (listPathfinders pf pathfinders).1).Perm (listing pathfinders) := by
  intro hperm
  have hlisted : fromCore (pathfinderMsg PATHFINDER pf) ∈ listing pathfinders :=
    List.mem_filterMap.mpr ⟨some pf, hpf, by simp [hstate]⟩
  obtain ⟨hsent, hping⟩ := List.mem_filter.mp (hperm.mem_iff.mpr hlisted)
  have hlength : (fromCore (pathfinderMsg PATHFINDER pf)).length = 76 := by simp [fromCore, pathfinderMsg, bigEndian32]
  have hsent := (mem_listPathfinders hsent).resolve_right (of_decide_eq_true hping)
  omega

/-- A pathfinder for the tests of this module. -/
def connected (id : BitVec 16) : Pathfinder :=
  { userAgent := .replicate 64 0, superiority := 0, state := .CONNECTED, pathfinderId := id, bytesSinceLastPing := 0 }

/-- Two are connected: the first asks, and is told twice of itself, after a number that is no part of the event. -/
theorem listPathfinders_two : (listPathfinders (connected 0) [some (connected 0), some (connected 1)]).1 =
      [pathfinderMsg PATHFINDER (connected 0), pathfinderMsg PATHFINDER (connected 0)] ∧
    listing [some (connected 0), some (connected 1)] =
      [fromCore (pathfinderMsg PATHFINDER (connected 0)), fromCore (pathfinderMsg PATHFINDER (connected 1))] ∧
    pathfinderMsg PATHFINDER (connected 0) ∉ listing [some (connected 0), some (connected 1)] := by
  decide

theorem not_listing_two : ¬ (answers (listPathfinders (connected 0) [some (connected 0), some (connected 1)]).1).Perm
    (listing [some (connected 0), some (connected 1)]) :=
  listPathfinders_not_listing List.mem_cons_self rfl

end Hyperboria.EventEmitter
