import Galileo.Lib.Run
import Galileo.Lib.Splay

/-!
# The connections of a process, as a splay tree (`fcgi.c`, `config.c`)

`sc_fcgi_socks` as it is: a splay tree with the comparison `fcgi_cmp`, which a connection is put
into when it is accepted and taken out of when it ends (`fcgi_error`) or is purged (`config_purge`).
Connections differ by the number of their `accept`; the source has nothing but the id.

`live` has the connections that are not freed. Of the calls that may fail, `accept_reserve` and
`calloc` leave everything as it is; `bufferevent_new` comes behind the assignment of an id.
-/

set_option autoImplicit false

namespace Galileo

open Lib

structure FcgiSock where
  fcgId : UInt32
  serial : Nat
deriving DecidableEq

/-- `fcgi_cmp`: the difference is taken modulo `2^32` and converted to `int`. -/
def fcgiCmp (a b : FcgiSock) : Int := (a.fcgId - b.fcgId).toBitVec.toInt

structure Socks where
  proxyFcgId : UInt32
  scFcgiSocks : Splay FcgiSock
  live : List FcgiSock
  accepted : Nat
deriving DecidableEq

inductive SockEvent where
  /-- `fcgi_accept`, and whether `bufferevent_new` succeeds. -/
  | accept (bev : Bool)
  /-- The connection ends. -/
  | close (serial : Nat)
  /-- A round of the loop of `config_purge`. -/
  | purge
deriving DecidableEq

namespace Socks

def start : Socks := ⟨0, .nil, [], 0⟩

/-- `SPLAY_REMOVE`, and the connection is freed. -/
def free (s : Socks) (k : FcgiSock) : Socks :=
  { s with scFcgiSocks := Splay.remove fcgiCmp k s.scFcgiSocks, live := s.live.erase k }

def step (s : Socks) : SockEvent → Socks
  | .accept bev =>
      let s := { s with proxyFcgId := s.proxyFcgId + 1 }
      let fcgi : FcgiSock := ⟨s.proxyFcgId, s.accepted⟩
      if bev then
        { s with
          scFcgiSocks := Splay.insert fcgiCmp fcgi s.scFcgiSocks
          live := s.live ++ [fcgi]
          accepted := s.accepted + 1 }
      else { s with accepted := s.accepted + 1 }
  | .close serial =>
      match s.live.find? (·.serial == serial) with
      | none => s
      | some k => s.free k
  | .purge =>
      match Splay.root? (Splay.splayMin s.scFcgiSocks) with
      | none => s
      | some k => { s with scFcgiSocks := Splay.splayMin s.scFcgiSocks }.free k

end Socks

end Galileo
