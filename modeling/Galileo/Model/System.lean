import Galileo.Lib.Run
import Galileo.Model.Read

/-!
# A connection under all events

Everything that can happen to one connection between `fcgi_accept` and `fcgi_error`: bytes arrive
and `fcgi_read` takes another turn of its loop; the resolver answers, a connection attempt is
reported, the Gemini server sends bytes or hangs up, for any request on the connection and in any
order; the socket takes queued bytes and `fcgi_write` is called; the peer goes away.

The turns of `fcgi_read`'s loop are events of their own. So a run here is any interleaving of
whole callbacks *and* of turns of that loop, which covers what libevent can produce
(`fcgiRead_run`); a property of all runs of this system is a property of all runs of the program.
-/

set_option autoImplicit false

namespace Galileo

open Lib

inductive Event where
  /-- Bytes arrive from the web server. -/
  | arrive (bytes : Bytes)
  /-- `fcgi_read` takes another turn of its loop. -/
  | read (stale : Bytes)
  /-- `proxy_resolved` for the client with this id. -/
  | resolved (id : UInt16) (res : Option (List Addrinfo)) (net : NetEnv)
  /-- `proxy_connect`: the pending connection is writable, or has timed out. -/
  | connect (id : UInt16) (net : NetEnv)
  /-- The Gemini server has sent bytes: `proxy_read`. -/
  | upstream (id : UInt16) (oob : Bytes → Bytes) (bytes : Bytes)
  /-- End of file or error on the upstream connection: `proxy_error`. -/
  | upstreamError (id : UInt16) (err : Nat)
  /-- The socket has taken `n` more bytes of the output: `fcgi_write`. -/
  | drained (n : Nat)
  /-- libevent reports an error on the connection: `fcgi_error`. -/
  | error

/-- Whether the event is a turn of the loop of `fcgi_read`. -/
def Event.isRead : Event → Bool
  | .read _ => true
  | _ => false

/-- A callback for the client with this id, if it is waiting for one. -/
def callback (id : UInt16) (waiting : Client → Bool) (m : CltM Unit) (f : Fcgi) : Fcgi :=
  match f.find id.toUInt32 with
  | none => f
  | some c => if waiting c then (withClient id.toUInt32 m f).2 else f

/-- The resolver and the connection attempt only call back for a request that was started. (One
that was started twice has two of each, so no more than that is asked for.) -/
def Client.started (c : Client) : Bool := c.cltPc.isSome

/-- The Gemini server is only heard once there is a `bufferevent` for it. -/
def Client.connected (c : Client) : Bool := c.started && c.cltBev.isSome

/-- What one event does to an open connection. -/
def handle (env : Env) (f : Fcgi) : Event → Fcgi
  | .arrive bytes => f.arrive bytes
  | .read stale => (readStep env stale f).fcgi
  | .resolved id res net => callback id Client.started (proxyResolved res net) f
  | .connect id net => callback id Client.started (proxyConnect net) f
  | .upstream id oob bytes => callback id Client.connected (upstreamRead oob bytes) f
  | .upstreamError id err => callback id Client.connected (proxyError err) f
  | .drained n => fcgiWrite { f with sent := min (f.sent + n) f.output.length }
  | .error => fcgiError f

/-- Nothing happens on a connection that is gone. -/
def step (env : Env) (f : Fcgi) (e : Event) : Fcgi := if f.closed then f else handle env f e

/-- The connection after a run. -/
def run (env : Env) (f : Fcgi) (es : List Event) : Fcgi := Run.run (step env) f es

/-- `fcgi_read` as a callback is a run of its turns. -/
theorem fcgiRead_run (env : Env) (stale : Bytes) (f : Fcgi) :
    ∃ n, fcgiRead env stale f = run env f (List.replicate n (.read stale)) := by
  suffices h : ∀ (k : Nat) (f : Fcgi),
      ∃ n, readLoop env stale k f = run env f (List.replicate n (.read stale)) from h _ f
  intro k
  induction k with
  | zero => exact fun f => ⟨0, rfl⟩
  | succ k ih =>
    intro f
    by_cases hc : f.closed
    · exact ⟨0, by simp [readLoop, readStep, hc, run]⟩
    · cases hs : readStep env stale f with
      | ret f' =>
        refine ⟨1, ?_⟩
        simp [readLoop, hs, run, step, hc, handle, Flow.fcgi]
      | next f' =>
        obtain ⟨n, hn⟩ := ih f'
        refine ⟨n + 1, ?_⟩
        rw [readLoop, hs]
        simpa [run, List.replicate_succ, step, hc, handle, hs, Flow.fcgi] using hn

end Galileo
