import Galileo.Model.Daemon

/-!
# The configuration file (`parse.y`)

`parse_config` as the semantic actions of the grammar and what the lexer does to the files and to
the macros in between.

* **The text** of a configuration, with the files it includes, is the list of the actions the parser
  performs for it. The grammar and its error recovery allow few of these lists; nothing here depends
  on which. An option of a proxy block outside of one would follow a null pointer: no action list of
  the grammar has it, and in the model the process is gone.
* **Files.** `file` is on top of those that include it. Every file counts its own errors, which it
  leaves to the one below when the lexer is at its end (`popfile`); at the end of the topmost file
  it stays. A NUL byte is the end of the input for the parser, in whatever file it is.
* **The system.** `getservbyname` is a parameter, and so are the two limits of `limits.h`. There is
  memory, and the lexer's `strdup`s have been freed.
-/

set_option autoImplicit false

namespace Galileo.Conf

open Lib

/-! ## Macros -/

/-- `struct sym`. -/
structure Sym where
  nam : Bytes
  val : Bytes
  used : Bool
  persist : Bool
deriving DecidableEq

/-- `symset`. -/
def symset (nam val : Bytes) (persist : Bool) (symhead : List Sym) : List Sym :=
  match symhead.find? (·.nam == nam) with
  | some sym =>
      if sym.persist then symhead
      else symhead.eraseP (·.nam == nam) ++ [⟨nam, val, false, persist⟩]
  | none => symhead ++ [⟨nam, val, false, persist⟩]

/-- `cmdline_symset`: the name ends at the last `=`. -/
def cmdlineSymset (s : Bytes) (symhead : List Sym) : Option Unit × List Sym :=
  match splitLast 61 s with
  | none => (none, symhead)
  | some (sym, val) => (some (), symset sym val true symhead)

/-- `symget`. -/
def symget (nam : Bytes) : List Sym → Option Bytes × List Sym
  | [] => (none, [])
  | sym :: symhead =>
      if sym.nam == nam then (some sym.val, { sym with used := true } :: symhead)
      else ((symget nam symhead).1, sym :: (symget nam symhead).2)

/-- The end of `parse_config`: the macros it warns about, and those that stay. -/
def freeMacros (symhead : List Sym) : List Bytes × List Sym :=
  ((symhead.filter fun sym => !sym.used).map (·.nam), symhead.filter fun sym => sym.persist)

/-! ## State -/

structure Limits where
  pathMax : Nat
  hostNameMax : Nat
  pos : 0 < hostNameMax

/-- `struct galileo`, as far as `parse_config` writes it. -/
structure Config where
  scConffile : Bytes
  scPrefork : Nat
  scChroot : Bytes
  scProxies : List ProxyConfig

structure Parse where
  conf : Config
  /-- The block that is being read. -/
  pr : Option ProxyConfig
  /-- `file->errors`. -/
  errors : Nat
  /-- The same of the files below, the includer first. -/
  outer : List Nat
  symhead : List Sym
  /-- What `yyerror` has printed, without file and line. -/
  log : List Bytes

def Parse.yyerror (msg : Bytes) (p : Parse) : Parse :=
  { p with errors := p.errors + 1, log := p.log ++ [msg] }

def Parse.yyerrors (msgs : List Bytes) (p : Parse) : Parse :=
  msgs.foldl (fun p msg => p.yyerror msg) p

def Parse.pushfile (p : Parse) : Parse := { p with errors := 0, outer := p.errors :: p.outer }

/-- `popfile`, which the lexer does not call for `topfile`. -/
def Parse.popfile (p : Parse) : Parse :=
  match p.outer with
  | [] => p
  | e :: outer => { p with errors := e + p.errors, outer := outer }

/-! ## Ports -/

/-- The two tokens a port may be. -/
inductive PortTok where
  | number (n : Int)
  | string (s : Bytes)
deriving DecidableEq

section Services

variable (lim : Limits) (serv : Bytes → Bytes → Option UInt16)

/-- `getservice`; `serv` is `getservbyname` with the port in host order. -/
def getservice (n : Bytes) : Option Nat :=
  match strtonum n 0 65535 with
  | some llval => some llval.toNat
  | none =>
      match serv n (lit "tcp") with
      | some port => some port.toNat
      | none => (serv n (lit "udp")).map UInt16.toNat

/-- The rule `port`: its value, or what it complains about. -/
def port : PortTok → Except Bytes Int
  | .number n =>
      if n ≤ 0 ∨ n > 65535 then .error (lit "invalid port: " ++ fmtInt n) else .ok n
  | .string s =>
      match getservice serv s with
      | none => .error (lit "invalid port: " ++ s)
      | some val => .ok val

/-- The rule `proxyport`: what it leaves in `proxy_port`. -/
def proxyport : Option PortTok → Except Bytes Bytes
  | none => .ok (lit "1965")
  | some tok =>
      match port serv tok with
      | .error msg => .error msg
      | .ok n => .ok (fmtInt n)

/-! ## Options of a block -/

/-- An alternative of `proxyoptsl`. -/
inductive Opt where
  | source (addr : Bytes) (proxyport : Option PortTok)
  | hostname (name : Bytes)
  | stylesheet (path : Bytes)
  | noFooter
  | noImagePreview
  | noNavigationBar
  | noTls
deriving DecidableEq

/-- `n = strlcpy(dst, src, sizeof(dst)); if (n >= sizeof(dst)) yyerror(msg);` -/
def copyOr (siz : Nat) (src : Bytes) (msg : String) : Bytes × List Bytes :=
  (strlcpy siz src, if src.length ≥ siz then [lit msg] else [])

/-- What `calloc` leaves. -/
def proxyConfigZero : ProxyConfig := ⟨[], [], [], [], [], false, false, false, false⟩

/-- The actions of `proxyoptsl`: what becomes of `pr`, and the calls of `yyerror`. A port that is
refused ends the parse of the line in front of the action for `source`. -/
def Opt.act (pr : ProxyConfig) : Opt → ProxyConfig × List Bytes
  | .source addr tok =>
      match proxyport serv tok with
      | .error msg => (pr, [msg])
      | .ok text =>
          let (addr', msgs) := copyOr (lim.hostNameMax + 1) addr "proxy source too long!"
          let (name, msgs') :=
            if pr.proxyName.isEmpty then
              copyOr (lim.hostNameMax + 1) addr "proxy hostname too long!"
            else (pr.proxyName, [])
          ({ pr with proxyPort := text, proxyAddr := addr', proxyName := name }, msgs ++ msgs')
  | .hostname name =>
      let (name, msgs) := copyOr (lim.hostNameMax + 1) name "proxy hostname too long!"
      ({ pr with proxyName := name }, msgs)
  | .stylesheet path =>
      let (path, msgs) := copyOr lim.pathMax path "stylesheet path too long!"
      ({ pr with stylesheet := path }, msgs)
  | .noFooter => ({ pr with noFooter := true }, [])
  | .noImagePreview => ({ pr with noImgprv := true }, [])
  | .noNavigationBar => ({ pr with noNavbar := true }, [])
  | .noTls => ({ pr with noTls := true }, [])

/-! ## Actions -/

inductive Action where
  /-- `include`, and whether `pushfile` can open the file. -/
  | includeFile (name : Bytes) (opened : Bool)
  /-- The lexer is at the end of the file. -/
  | eof
  /-- `yyerror`, called by the parser or by the lexer. -/
  | error (msg : Bytes)
  /-- The action of `grammar error '\n'`. -/
  | recovered
  | varset (nam val : Bytes)
  /-- `$nam` in the text. -/
  | reference (nam : Bytes)
  | prefork (n : Int)
  | chroot (path : Bytes)
  /-- `PROXY STRING`, in front of the brace. -/
  | proxy (host : Bytes)
  | option (o : Opt)
  /-- The brace that ends a block. -/
  | close
deriving DecidableEq

/-- The end of a block. The block is stored whatever is wrong with it. -/
def closeBlock (pr : ProxyConfig) (p : Parse) : Parse :=
  let p := if p.conf.scProxies.any (·.host == pr.host) then
      p.yyerror (lit "duplicate proxy `" ++ pr.host ++ lit "'") else p
  let p := { p with conf := { p.conf with scProxies := p.conf.scProxies ++ [pr] } }
  let p := if pr.proxyAddr.isEmpty then
      p.yyerror (lit "missing source in proxy block `" ++ pr.host ++ lit "'") else p
  { p with pr := none }

def act (p : Parse) : Action → Option Parse
  | .includeFile name opened =>
      some (if opened then p.pushfile else p.yyerror (lit "failed to include file " ++ name))
  | .eof => some p.popfile
  | .error msg => some (p.yyerror msg)
  | .recovered => some { p with errors := p.errors + 1 }
  | .varset nam val =>
      -- the loop looks at every byte but the first
      some (if nam.tail.any isspace then
          p.yyerror (lit "macro name cannot contain whitespace")
        else { p with symhead := symset nam val false p.symhead })
  | .reference nam =>
      some (match symget nam p.symhead with
        | (none, _) => p.yyerror (lit "macro '" ++ nam ++ lit "' not defined")
        | (some _, symhead) => { p with symhead := symhead })
  | .prefork n =>
      some (if n ≤ 0 ∨ n > procMaxInstances then
          p.yyerror (lit "invalid number of preforked proxies: " ++ fmtInt n)
        else { p with conf := { p.conf with scPrefork := n.toNat } })
  | .chroot path =>
      let (path, msgs) := copyOr lim.pathMax path "chroot path too long!"
      some ({ p with conf := { p.conf with scChroot := path } }.yyerrors msgs)
  | .proxy host =>
      some (if host.length ≥ lim.hostNameMax + 1 then p.yyerror (lit "server name too long")
        else { p with pr := some { proxyConfigZero with host := host } })
  | .option o =>
      p.pr.map fun pr => { p with pr := some (o.act lim serv pr).1 }.yyerrors (o.act lim serv pr).2
  | .close => p.pr.map fun pr => closeBlock pr p

/-- The actions of a parse, in order. -/
def acts (p : Parse) (as : List Action) : Option Parse := as.foldlM (act lim serv) p

/-- What `parse_config` leaves: whether it returned 0, and the warnings about macros. -/
structure Parsed where
  ok : Bool
  conf : Config
  symhead : List Sym
  unused : List Bytes

/-- `parse_config`, for a file that can be opened or not. -/
def parseConfig (filename : Bytes) (opened : Bool) (as : List Action) (conf : Config)
    (symhead : List Sym) : Option Parsed :=
  let conf := { conf with scConffile := strlcpy lim.pathMax filename }
  if filename.length ≥ lim.pathMax then some ⟨false, conf, symhead, []⟩
  else if !opened then some ⟨false, conf, symhead, []⟩
  else
    (acts lim serv ⟨conf, none, 0, [], symhead, []⟩ as).map fun p =>
      let p := if p.conf.scProxies.isEmpty then p.yyerror (lit "no proxies defined") else p
      ⟨p.errors == 0, p.conf, (freeMacros p.symhead).2, (freeMacros p.symhead).1⟩

end Services

end Galileo.Conf
