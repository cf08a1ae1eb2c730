import AiInterceptor.Lib.TSys

/-!
# The relay of the test proxy

After the dial, `handle` starts one `io.Copy` for each direction, waits for one
result on `errc`, and returns; its deferred calls close both connections. A
direction is a pipe: what its source has sent and the copier has not read, what
the copier has read and not written, and what it has written. The two peers, the
two copiers and the handler take their steps in any order.
-/

namespace AiInterceptor.Proxy

/-- The largest piece of one turn of `io.Copy`, by the buffer it falls back on. Between
two TCP connections it splices where it can, as on Linux: the size of a piece is then up
to the kernel, and the process never holds it. -/
def copyBufSize : Nat := 32 * 1024

/-- `up` is from the client to the upstream, `down` is back. -/
inductive Dir
  | up | down
  deriving DecidableEq, Repr

def Dir.other : Dir → Dir
  | .up => .down
  | .down => .up

/-- One direction. `closed` is the source's half-close, which follows its last
byte; `done` means that the copier has put its result on `errc`, and `failed` that
the result is an error. -/
structure Pipe where
  sent : List UInt8
  inbound : List UInt8
  closed : Bool
  buf : List UInt8
  delivered : List UInt8
  done : Bool
  failed : Bool
  deriving DecidableEq, Repr

/-- The steps of a source (`send`, `halfClose`) and of a copier. -/
inductive PipeEvent
  | send (bytes : List UInt8)
  | halfClose
  | read (n : Nat)
  | write
  | eof
  | fail
  deriving DecidableEq, Repr

/-- A copier only runs while the connections are open and it has not returned. -/
def Pipe.step (torn : Bool) (p : Pipe) : PipeEvent → Option Pipe
  | .send bytes =>
      if p.closed then none
      else some { p with sent := p.sent ++ bytes, inbound := p.inbound ++ bytes }
  | .halfClose => if p.closed then none else some { p with closed := true }
  | .read n =>
      if torn ∨ p.done ∨ p.buf ≠ [] ∨ n = 0 ∨ copyBufSize < n ∨ p.inbound.length < n then none
      else some { p with buf := p.inbound.take n, inbound := p.inbound.drop n }
  | .write =>
      if torn ∨ p.done ∨ p.buf = [] then none
      else some { p with delivered := p.delivered ++ p.buf, buf := [] }
  | .eof =>
      if torn ∨ p.done ∨ p.buf ≠ [] ∨ p.inbound ≠ [] ∨ p.closed = false then none
      else some { p with done := true }
  | .fail =>
      if torn ∨ p.done then none else some { p with done := true, failed := true }

structure Relay where
  up : Pipe
  down : Pipe
  /-- `handle` has returned and both connections are closed. -/
  torn : Bool
  deriving DecidableEq, Repr

namespace Relay

def pipe (σ : Relay) : Dir → Pipe
  | .up => σ.up
  | .down => σ.down

def setPipe (σ : Relay) (d : Dir) (p : Pipe) : Relay :=
  match d with
  | .up => { σ with up := p }
  | .down => { σ with down := p }

inductive Event
  | on (d : Dir) (e : PipeEvent)
  | teardown
  deriving DecidableEq, Repr

/-- The relay as `handle` starts it, with the peeked bytes already forwarded. -/
def start (peeked : List UInt8) : Relay :=
  { up := ⟨peeked, [], false, [], peeked, false, false⟩
    down := ⟨[], [], false, [], [], false, false⟩
    torn := false }

/-- `teardown` is the receive from `errc` and the return: one result is enough. -/
def step (σ : Relay) : Event → Option Relay
  | .on d e => (Pipe.step σ.torn (σ.pipe d) e).map (σ.setPipe d)
  | .teardown =>
      if σ.torn = false ∧ (σ.up.done ∨ σ.down.done) then some { σ with torn := true } else none

@[simp] theorem pipe_setPipe_self (σ : Relay) (d : Dir) (p : Pipe) :
    (σ.setPipe d p).pipe d = p := by
  cases d <;> rfl

@[simp] theorem pipe_setPipe_other (σ : Relay) (d : Dir) (p : Pipe) :
    (σ.setPipe d p).pipe d.other = σ.pipe d.other := by
  cases d <;> rfl

@[simp] theorem torn_setPipe (σ : Relay) (d : Dir) (p : Pipe) :
    (σ.setPipe d p).torn = σ.torn := by
  cases d <;> rfl

theorem dir_cases (d d' : Dir) : d' = d ∨ d' = d.other := by
  cases d <;> cases d' <;> simp [Dir.other]

end Relay

end AiInterceptor.Proxy
