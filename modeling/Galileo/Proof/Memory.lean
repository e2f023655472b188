import Mathlib.Data.Nat.Digits.Defs
import Galileo.Model.Privsep
import Galileo.Proof.Config

/-!
# A `struct proxy` in memory

The parent sends its proxies the memory of a `struct proxy`, and they read the configuration out of
theirs. The two pointers of the list entry, what is behind the NULs and the padding go along and
mean nothing. Whatever they are, the configuration is the same on both sides, if its strings have
room (`Fits`); and what the parser stores always has, whether it complains or not.
-/

set_option autoImplicit false

namespace Galileo

open Lib

namespace Wire

/-- The strings of a configuration have room in a `struct proxy`, with their NULs. -/
structure Fits (hostNameMax pathMax : Nat) (c : ProxyConfig) : Prop where
  host : c.host.length < hostNameMax + 1 ∧ 0 ∉ c.host
  stylesheet : c.stylesheet.length < pathMax ∧ 0 ∉ c.stylesheet
  proxyAddr : c.proxyAddr.length < hostNameMax + 1 ∧ 0 ∉ c.proxyAddr
  proxyName : c.proxyName.length < hostNameMax + 1 ∧ 0 ∉ c.proxyName
  proxyPort : c.proxyPort.length < 6 ∧ 0 ∉ c.proxyPort

variable {mem : Nat → UInt8} {a b s : Bytes} {c : ProxyConfig} {hostNameMax pathMax : Nat}

@[simp] theorem length_gap (mem : Nat → UInt8) (o n : Nat) : (gap mem o n).length = n := by
  simp [gap]

theorem length_cell {n : Nat} (h : s.length < n) (mem : Nat → UInt8) (o : Nat) :
    (cell mem o n s).length = n := by
  simp only [cell, List.length_append, List.length_cons, length_gap]
  omega

theorem takeWhile_nul (h : 0 ∉ s) (t : Bytes) : (s ++ 0 :: t).takeWhile (· != 0) = s := by
  induction s with
  | nil => simp
  | cons x s ih =>
    have hx : x ≠ 0 := fun hx => h (hx ▸ List.mem_cons_self)
    have hs := ih fun hs => h (List.mem_cons_of_mem _ hs)
    simp [hx, hs]

theorem take_skip {n : Nat} (h : a.length = n) : (a ++ b).take n = a := by
  rw [← h, List.take_left]

theorem drop_skip {o : Nat} (h : a.length = o) : (a ++ b).drop o = b := by
  rw [← h, List.drop_left]

/-- The string of a field that lies behind `a`. -/
theorem cstrAt_cell {o n : Nat} (ha : a.length = o) (h : s.length < n ∧ 0 ∉ s) (o' : Nat) :
    cstrAt o n (a ++ (cell mem o' n s ++ b)) = s := by
  rw [cstrAt, cstr, drop_skip ha, take_skip (length_cell h.1 mem o'), cell, takeWhile_nul h.2]

theorem flags_lt (c : ProxyConfig) : flags c < 256 ^ 4 := by
  have hle : ∀ b : Bool, b.toNat ≤ 1 := Bool.toNat_le
  have h1 := hle c.noTls
  have h2 := hle c.noNavbar
  have h3 := hle c.noFooter
  have h4 := hle c.noImgprv
  rw [flags]
  omega

theorem testBit_flags (c : ProxyConfig) :
    (flags c).testBit 0 = c.noTls ∧ (flags c).testBit 1 = c.noNavbar ∧
      (flags c).testBit 2 = c.noFooter ∧ (flags c).testBit 3 = c.noImgprv := by
  rw [flags]
  generalize c.noTls = b₀, c.noNavbar = b₁, c.noFooter = b₂, c.noImgprv = b₃
  revert b₀ b₁ b₂ b₃
  decide

/-- **A configuration comes out of the memory of the parent as it went in**, whatever is in the rest
of the memory. -/
theorem ofProxyBytes_proxyBytes (h : Fits hostNameMax pathMax c) (mem : Nat → UInt8) :
    ofProxyBytes hostNameMax pathMax (proxyBytes hostNameMax pathMax mem c) = c := by
  have hentry := length_gap mem 0 hostOffset
  have hhost := length_cell h.host.1 mem hostOffset
  have hstyle := length_cell h.stylesheet.1 mem (stylesheetOffset hostNameMax)
  have haddr := length_cell h.proxyAddr.1 mem (proxyAddrOffset hostNameMax pathMax)
  have hname := length_cell h.proxyName.1 mem (proxyNameOffset hostNameMax pathMax)
  have hport := length_cell h.proxyPort.1 mem (proxyPortOffset hostNameMax pathMax)
  have hpad := length_gap mem (proxyPortOffset hostNameMax pathMax + 6)
    (flagsOffset hostNameMax pathMax - (proxyPortOffset hostNameMax pathMax + 6))
  have hle : proxyPortOffset hostNameMax pathMax + 6 ≤ flagsOffset hostNameMax pathMax := by
    rw [flagsOffset]
    omega
  have hflags : unle (((proxyBytes hostNameMax pathMax mem c).drop
      (flagsOffset hostNameMax pathMax)).take 4) = flags c := by
    rw [proxyBytes]
    simp only [← List.append_assoc]
    rw [List.append_assoc _ (le 4 (flags c)), drop_skip, take_skip (length_le 4 _),
      unle_le (flags_lt c)]
    simp only [List.length_append, hentry, hhost, hstyle, haddr, hname, hport, hpad]
    simp only [proxyPortOffset, proxyNameOffset, proxyAddrOffset, stylesheetOffset] at hle ⊢
    omega
  obtain ⟨b₀, b₁, b₂, b₃⟩ := testBit_flags c
  obtain ⟨host, stylesheet, proxyAddr, proxyName, proxyPort, noTls, noNavbar, noFooter,
    noImgprv⟩ := c
  rw [ofProxyBytes]
  simp only [hflags, b₀, b₁, b₂, b₃, ProxyConfig.mk.injEq, and_true]
  -- each field lies behind as many bytes as its offset says
  refine ⟨?_, ?_, ?_, ?_, ?_⟩
  · exact cstrAt_cell hentry h.host _
  · rw [proxyBytes, ← List.append_assoc]
    refine cstrAt_cell ?_ h.stylesheet _
    rw [List.length_append, hentry, hhost, stylesheetOffset]
  · rw [proxyBytes, ← List.append_assoc, ← List.append_assoc]
    refine cstrAt_cell ?_ h.proxyAddr _
    rw [List.length_append, List.length_append, hentry, hhost, hstyle, proxyAddrOffset,
      stylesheetOffset]
  · rw [proxyBytes, ← List.append_assoc, ← List.append_assoc, ← List.append_assoc]
    refine cstrAt_cell ?_ h.proxyName _
    simp only [List.length_append, hentry, hhost, hstyle, haddr]
    rw [proxyNameOffset, proxyAddrOffset, stylesheetOffset]
  · rw [proxyBytes, ← List.append_assoc, ← List.append_assoc, ← List.append_assoc,
      ← List.append_assoc]
    refine cstrAt_cell ?_ h.proxyPort _
    simp only [List.length_append, hentry, hhost, hstyle, haddr, hname]
    rw [proxyPortOffset, proxyNameOffset, proxyAddrOffset, stylesheetOffset]

theorem length_proxyBytes (h : Fits hostNameMax pathMax c) (mem : Nat → UInt8) :
    (proxyBytes hostNameMax pathMax mem c).length = sizeofProxy hostNameMax pathMax := by
  simp only [proxyBytes, List.length_append, length_gap, length_le, length_cell h.host.1,
    length_cell h.stylesheet.1, length_cell h.proxyAddr.1, length_cell h.proxyName.1,
    length_cell h.proxyPort.1]
  simp only [sizeofProxy, flagsOffset, proxyPortOffset, proxyNameOffset, proxyAddrOffset,
    stylesheetOffset, hostOffset]
  omega

/-! ## What the parser stores -/

section Parser

variable {lim : Conf.Limits} {serv : Bytes → Bytes → Option UInt16}

/-- The strings an action copies into a block are strings of C. A port is stored as the digits of
its number and not as it is written. -/
def NoNul : Conf.Action → Prop
  | .proxy host => 0 ∉ host
  | .option (.source addr _) => 0 ∉ addr
  | .option (.hostname name) => 0 ∉ name
  | .option (.stylesheet path) => 0 ∉ path
  | _ => True

theorem strlcpy_fits {siz : Nat} (hsiz : 0 < siz) {s : Bytes} (h : 0 ∉ s) :
    (strlcpy siz s).length < siz ∧ 0 ∉ strlcpy siz s := by
  refine ⟨?_, fun hmem => h (List.mem_of_mem_take hmem)⟩
  rw [strlcpy, List.length_take]
  omega

theorem fmtNat_fits {n : Nat} (hn : n ≤ 65535) : (fmtNat n).length < 6 ∧ 0 ∉ fmtNat n := by
  refine ⟨?_, fun hmem => ?_⟩
  · rw [fmtNat, List.length_map]
    exact Nat.lt_succ_of_le (Nat.toDigits_length 10 n 5 (by decide) (by omega))
  · obtain ⟨c, hc, hzero⟩ := List.mem_map.mp hmem
    have hdigit := Nat.isDigit_of_mem_toDigits (by decide) (by decide) hc
    have hrange : 48 ≤ c.toNat ∧ c.toNat ≤ 57 := by
      simp only [Char.isDigit, ge_iff_le, Bool.and_eq_true, decide_eq_true_eq,
        UInt32.le_iff_toNat_le]
        at hdigit
      exact hdigit
    have hnat := congrArg UInt8.toNat hzero
    rw [UInt8.toNat_ofNat'] at hnat
    simp at hnat
    omega

/-- An option keeps what it does not copy, and what it copies is cut. -/
theorem fits_act (hpath : 0 < lim.pathMax) {o : Conf.Opt} (ho : NoNul (.option o))
    {pr : ProxyConfig} (h : Fits lim.hostNameMax lim.pathMax pr) :
    Fits lim.hostNameMax lim.pathMax (o.act lim serv pr).1 := by
  have hname : ∀ {s : Bytes}, 0 ∉ s → _ :=
    fun {s} => @strlcpy_fits (lim.hostNameMax + 1) (Nat.succ_pos _) s
  cases o with
  | source addr tok =>
    have haddr : 0 ∉ addr := ho
    rw [Conf.Opt.act]
    cases hport : Conf.proxyport serv tok with
    | error msg => exact h
    | ok text =>
      obtain ⟨n, hn, rfl, -⟩ := Conf.proxyport_ok serv hport
      refine ⟨h.host, h.stylesheet, hname haddr, ?_, fmtNat_fits hn⟩
      dsimp only
      split
      · exact hname haddr
      · exact h.proxyName
  | hostname name => exact ⟨h.host, h.stylesheet, h.proxyAddr, hname ho, h.proxyPort⟩
  | stylesheet path => exact ⟨h.host, strlcpy_fits hpath ho, h.proxyAddr, h.proxyName, h.proxyPort⟩
  | noFooter => exact ⟨h.host, h.stylesheet, h.proxyAddr, h.proxyName, h.proxyPort⟩
  | noImagePreview => exact ⟨h.host, h.stylesheet, h.proxyAddr, h.proxyName, h.proxyPort⟩
  | noNavigationBar => exact ⟨h.host, h.stylesheet, h.proxyAddr, h.proxyName, h.proxyPort⟩
  | noTls => exact ⟨h.host, h.stylesheet, h.proxyAddr, h.proxyName, h.proxyPort⟩

/-- All that is stored has room in memory, and so has the block that is being read. -/
structure AllFit (lim : Conf.Limits) (p : Conf.Parse) : Prop where
  stored : ∀ c ∈ p.conf.scProxies, Fits lim.hostNameMax lim.pathMax c
  current : ∀ pr, p.pr = some pr → Fits lim.hostNameMax lim.pathMax pr

theorem AllFit.yyerrors {p : Conf.Parse} (h : AllFit lim p) (msgs : List Bytes) :
    AllFit lim (p.yyerrors msgs) := by
  induction msgs generalizing p with
  | nil => exact h
  | cons msg msgs ih => exact ih ⟨h.stored, h.current⟩

theorem AllFit.act (hpath : 0 < lim.pathMax) {p p' : Conf.Parse} {a : Conf.Action} (ha : NoNul a)
    (h : AllFit lim p) (hact : Conf.act lim serv p a = some p') : AllFit lim p' := by
  cases a with
  | includeFile name opened =>
    obtain rfl := Option.some.inj hact
    cases opened <;> exact ⟨h.stored, h.current⟩
  | eof =>
    obtain rfl := Option.some.inj hact
    rw [Conf.Parse.popfile]
    split <;> exact ⟨h.stored, h.current⟩
  | error msg =>
    obtain rfl := Option.some.inj hact
    exact ⟨h.stored, h.current⟩
  | recovered =>
    obtain rfl := Option.some.inj hact
    exact ⟨h.stored, h.current⟩
  | varset nam val =>
    obtain rfl := Option.some.inj hact
    split <;> exact ⟨h.stored, h.current⟩
  | reference nam =>
    obtain rfl := Option.some.inj hact
    split <;> exact ⟨h.stored, h.current⟩
  | prefork n =>
    obtain rfl := Option.some.inj hact
    split <;> exact ⟨h.stored, h.current⟩
  | chroot path =>
    obtain rfl := Option.some.inj hact
    refine AllFit.yyerrors ?_ _
    exact ⟨h.stored, h.current⟩
  | proxy host =>
    obtain rfl := Option.some.inj hact
    split
    · exact ⟨h.stored, h.current⟩
    · next hlen =>
      refine ⟨h.stored, fun pr hpr => ?_⟩
      obtain rfl := Option.some.inj hpr
      have hempty : ∀ n, 0 < n → ([] : Bytes).length < n ∧ (0 : UInt8) ∉ ([] : Bytes) := fun n hn =>
        ⟨hn, List.not_mem_nil⟩
      exact ⟨⟨Nat.not_le.mp hlen, ha⟩, hempty _ hpath, hempty _ (Nat.succ_pos _),
        hempty _ (Nat.succ_pos _), hempty _ (by decide)⟩
  | option o =>
    obtain ⟨pr, hpr, rfl⟩ := Option.map_eq_some_iff.mp hact
    refine AllFit.yyerrors ?_ _
    refine ⟨h.stored, fun pr' hpr' => ?_⟩
    obtain rfl := Option.some.inj hpr'
    exact fits_act hpath ha (h.current pr hpr)
  | close =>
    obtain ⟨pr, hpr, rfl⟩ := Option.map_eq_some_iff.mp hact
    obtain ⟨log, hclose⟩ := Conf.closeBlock_eq pr p
    rw [hclose]
    refine ⟨fun c hc => ?_, fun pr' hpr' => by cases hpr'⟩
    rcases List.mem_append.mp hc with hc | hc
    · exact h.stored c hc
    · rw [List.mem_singleton.mp hc]
      exact h.current pr hpr

theorem AllFit.acts (hpath : 0 < lim.pathMax) {as : List Conf.Action} (has : ∀ a ∈ as, NoNul a)
    {p p' : Conf.Parse} (h : AllFit lim p) (hacts : Conf.acts lim serv p as = some p') :
    AllFit lim p' := by
  induction as generalizing p with
  | nil =>
    obtain rfl := Option.some.inj hacts
    exact h
  | cons a as ih =>
    rw [Conf.acts, List.foldlM_cons] at hacts
    obtain ⟨p₁, hp₁, hrest⟩ := Option.bind_eq_some_iff.mp hacts
    exact ih (fun x hx => has x (List.mem_cons_of_mem _ hx))
      (h.act hpath (has a List.mem_cons_self) hp₁) hrest

/-- What `parse_config` leaves has room in memory. -/
theorem parsed_fits (hpath : 0 < lim.pathMax) {filename : Bytes} {opened : Bool}
    {as : List Conf.Action} {conf : Conf.Config} {symhead : List Conf.Sym} {r : Conf.Parsed}
    (hempty : conf.scProxies = []) (has : ∀ a ∈ as, NoNul a)
    (h : Conf.parseConfig lim serv filename opened as conf symhead = some r) :
    ∀ c ∈ r.conf.scProxies, Fits lim.hostNameMax lim.pathMax c := by
  have hstart : ∀ c ∈ conf.scProxies, Fits lim.hostNameMax lim.pathMax c := by
    rw [hempty]
    exact List.forall_mem_nil _
  rw [Conf.parseConfig] at h
  split at h
  · obtain rfl := Option.some.inj h
    exact hstart
  · split at h
    · obtain rfl := Option.some.inj h
      exact hstart
    · obtain ⟨p, hp, rfl⟩ := Option.map_eq_some_iff.mp h
      have hall : AllFit lim p := AllFit.acts hpath has ⟨hstart, fun pr hpr => by cases hpr⟩ hp
      dsimp only
      split <;> exact hall.stored

/-- **A configuration survives the way to a proxy.** Whatever the text of the configuration, and
whatever else is in the memory of the parent: the structures it has stored have the size the proxies
check, and a proxy reads out of each the configuration that was parsed. -/
theorem parsed_configuration_survives (hpath : 0 < lim.pathMax) {filename : Bytes} {opened : Bool}
    {as : List Conf.Action} {conf : Conf.Config} {symhead : List Conf.Sym} {r : Conf.Parsed}
    (hempty : conf.scProxies = []) (has : ∀ a ∈ as, NoNul a)
    (h : Conf.parseConfig lim serv filename opened as conf symhead = some r) (mem : Nat → UInt8) :
    ∀ c ∈ r.conf.scProxies,
      (proxyBytes lim.hostNameMax lim.pathMax mem c).length
      = sizeofProxy lim.hostNameMax lim.pathMax ∧
        ofProxyBytes lim.hostNameMax lim.pathMax (proxyBytes lim.hostNameMax lim.pathMax mem c)
          = c := by
  intro c hc
  have hfits := parsed_fits hpath hempty has h c hc
  exact ⟨length_proxyBytes hfits mem, ofProxyBytes_proxyBytes hfits mem⟩

/-- `proxy "h" { source "a" port 1966 }`. -/
theorem source_survives :
    let lim : Conf.Limits := ⟨1024, 255, by decide⟩
    let as := [.proxy (lit "h"), .option (.source (lit "a") (some (.number 1966))), .close]
    ∃ r, Conf.parseConfig lim (fun _ _ => none) (lit "f") true as ⟨[], proxyNumproc, [], []⟩ []
      = some r ∧
      r.conf.scProxies.length = 1 ∧ ∀ c ∈ r.conf.scProxies,
        (proxyBytes 255 1024 (fun _ => 7) c).length = sizeofProxy 255 1024 ∧
          ofProxyBytes 255 1024 (proxyBytes 255 1024 (fun _ => 7) c) = c := by
  intro lim as
  obtain ⟨r, hr, hlen⟩ : ∃ r, Conf.parseConfig lim (fun _ _ => none) (lit "f") true as
      ⟨[], proxyNumproc, [], []⟩ [] = some r ∧ r.conf.scProxies.length = 1 := ⟨_, rfl, rfl⟩
  refine ⟨r, hr, hlen, parsed_configuration_survives (by decide) rfl (fun a ha => ?_) hr _⟩
  simp only [as, List.mem_cons, List.not_mem_nil, or_false] at ha
  rcases ha with rfl | rfl | rfl
  · exact (by decide : (0 : UInt8) ∉ lit "h")
  · exact (by decide : (0 : UInt8) ∉ lit "a")
  · trivial

end Parser

end Wire

end Galileo
