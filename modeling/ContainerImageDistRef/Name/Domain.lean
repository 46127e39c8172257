import ContainerImageDistRef.Name.Domain.Host
import ContainerImageDistRef.Name.Domain.Port

/-! # Domains: a host and an optional port -/

namespace ContainerImageDistRef

open ByteString Grammar PortOrTag

universe u

structure DomainSpan where
  host : HostSpan
  /-- the length of the port after its colon -/
  port : Option PortSpan
  deriving DecidableEq, Repr

namespace DomainSpan

def shortLen (span : DomainSpan) : LongLength :=
  span.host.length.widen.saturatingAdd
    ((span.port.map fun p => saturatingAddU8 p.length.val 1).getD 0)

def len (span : DomainSpan) : Nat := span.shortLen.val

def fromParts (host : HostSpan) (port : Option PortSpan) : Outcome Error DomainSpan :=
  match port with
  | some p => do
    let _ ← Outcome.okOr (host.length.checkedAdd p.length.val) ⟨maxU8, .portTooLong⟩
    .ok ⟨host, port⟩
  | none => .ok ⟨host, port⟩

def new (src : String) : Outcome Error DomainSpan := do
  let host ← HostSpan.new src
  let len := host.length.val
  let port ←
    match (asBytes src)[host.length.val]? with
    | none => (.ok none : Outcome Error (Option PortSpan))
    | some c =>
      if c = byte ':' then do
        let rest ← sliceFrom src (host.length.val + 1)
        let port ← (PortSpan.new rest).mapErr fun e =>
          (⟨saturatingAddU16 len e.index, e.kind⟩ : Error)
        .ok (some port)
      else if c = byte '/' ∨ c = byte '@' then .ok none
      else .err ⟨len, .hostInvalidChar⟩
  fromParts host port

def fromAmbiguous (host : HostOrPathSpan) (port : Option PortOrTagSpan) :
    Outcome Error DomainSpan := do
  let host ← HostSpan.tryFrom host
  let port ←
    match port with
    | some p => do
      let p ← PortSpan.tryFrom p
      .ok (some p)
    | none => (.ok none : Outcome Error (Option PortSpan))
  fromParts host port

end DomainSpan

namespace DomainSpan

/-- `host [":" port]` -/
def text (h : String) (p : Option String) : String :=
  match p with
  | none => h
  | some p => h ++ ":" ++ p

/-- What the standalone parser has read. The port can be the text of a tag. -/
structure Reads (h : String) (p : Option String) (d : DomainSpan) : Prop where
  host : d.host.Spans h
  port : (d.port.map fun q => q.length.val) = p.map ByteString.len
  tag : ∀ q, p = some q → TagText (asBytes q)
  limit : ∀ q, p = some q → kindOf .port (asBytes q) = .tag → ByteString.len q ≤ 129
  bound : ∀ q, p = some q → ByteString.len h + ByteString.len q ≤ maxU8

/-- The span of the domain with the host `h` and the port `p`. -/
structure Spans (h : String) (p : Option String) (d : DomainSpan) : Prop where
  host : d.host.Spans h
  port : (d.port.map fun q => q.length.val) = p.map ByteString.len
  digits : ∀ q, p = some q → asBytes q ∈ portNumber
  bound : ∀ q, p = some q → ByteString.len h + ByteString.len q ≤ maxU8

theorem len_text (h : String) (p : Option String) :
    ByteString.len (text h p) =
      ByteString.len h + ((p.map fun q => ByteString.len q + 1).getD 0) := by
  cases p with
  | none => rfl
  | some q =>
    simp only [text, len_append, Option.map_some, Option.getD_some]
    have : ByteString.len ":" = 1 := rfl
    omega

theorem Spans.unique {h : String} {p : Option String} {s t : DomainSpan} (hs : Spans h p s)
    (ht : Spans h p t) : s = t := by
  have hport := hs.port.trans ht.port.symm
  cases s with
  | mk host port =>
    cases t with
    | mk host' port' =>
      obtain rfl : host = host' := hs.host.unique ht.host
      cases port with
      | none =>
        cases port' with
        | none => rfl
        | some q => cases hport
      | some q =>
        cases port' with
        | none => cases hport
        | some q' =>
          have hq : q.length = q'.length := Length.ext (Option.some.inj hport)
          cases q
          cases q'
          cases hq
          rfl

theorem Spans.reads {h : String} {p : Option String} {d : DomainSpan} (hs : Spans h p d) :
    Reads h p d := by
  refine ⟨hs.host, hs.port, fun q hq => ?_, fun q hq hk => ?_, hs.bound⟩
  · exact (PortSpan.mem_portNumber.mp (hs.digits q hq)).1
  · cases (PortSpan.mem_portNumber.mp (hs.digits q hq)).2.symm.trans hk

theorem Reads.spans {h : String} {p : Option String} {d : DomainSpan} (hr : Reads h p d)
    (hdigits : ∀ q, p = some q → asBytes q ∈ portNumber) : Spans h p d :=
  ⟨hr.host, hr.port, hdigits, hr.bound⟩

/-- The bytes of the host, and those of the port and its colon. -/
def total (span : DomainSpan) : Nat :=
  span.host.length.val + ((span.port.map fun p => p.length.val + 1).getD 0)

/-- The check on host and port. -/
def Checked (span : DomainSpan) : Prop :=
  ∀ p, span.port = some p → span.host.length.val + p.length.val ≤ maxU8

/-- After the check no addition in `short_len` saturates. -/
theorem Checked.shortLen {d : DomainSpan} (h : d.Checked) : d.shortLen.val = d.total := by
  have hpos := d.host.length.pos
  have hle := d.host.length.le
  have hmax : maxU8 + 1 + maxU8 ≤ maxU16 := by decide
  rw [DomainSpan.shortLen, LongLength.saturatingAdd_val, ShortLength.widen_val, total]
  cases hp : d.port with
  | none =>
    simp only [Option.map_none, Option.getD_none]
    exact saturatingAddU16_of_le (by omega)
  | some p =>
    have hb := h p hp
    have h8 : saturatingAddU8 p.length.val 1 = p.length.val + 1 :=
      saturatingAddU8_of_le (by omega)
    simp only [Option.map_some, Option.getD_some, h8]
    exact saturatingAddU16_of_le (by omega)

theorem Reads.checked {h : String} {p : Option String} {d : DomainSpan} (hs : Reads h p d) :
    d.Checked := by
  intro port hport
  have hmap := hs.port
  rw [hport, Option.map_some] at hmap
  obtain ⟨q, rfl, hq⟩ := Option.map_eq_some_iff.mp hmap.symm
  rw [hs.host.length, ← hq]
  exact hs.bound q rfl

theorem Reads.total {h : String} {p : Option String} {d : DomainSpan} (hs : Reads h p d) :
    d.total = ByteString.len (text h p) := by
  have hport := congrArg (fun n => (n.map (· + 1)).getD 0) hs.port
  simp only [Option.map_map] at hport
  rw [len_text, DomainSpan.total, hs.host.length]
  exact congrArg (ByteString.len h + ·) hport

/-- No addition in `short_len` saturates. -/
theorem Reads.len {h : String} {p : Option String} {d : DomainSpan} (hs : Reads h p d) :
    d.len = ByteString.len (text h p) :=
  hs.checked.shortLen.trans hs.total

theorem Spans.len {h : String} {p : Option String} {d : DomainSpan} (hs : Spans h p d) :
    d.len = ByteString.len (text h p) := hs.reads.len

theorem fromParts_sat {h q : String} {host : HostSpan} (port : PortSpan) (hh : host.Spans h)
    (hq : port.length.val = ByteString.len q) (hdigits : asBytes q ∈ portNumber) :
    (fromParts host (some port)).Sat (Spans h (some q))
      fun e => e.index ≤ ByteString.len (text h (some q)) := by
  refine Outcome.Sat.bind (P := fun total : ShortLength =>
    host.length.val + port.length.val = total.val)
    (Outcome.sat_okOr (fun l hl => Length.checkedAdd_eq_some.mp hl) fun hl => ?_)
    fun total htotal => ?_
  · have hover := Length.checkedAdd_eq_none.mp hl
    rw [hh.length, hq] at hover
    rw [len_text]
    simp only [Option.map_some, Option.getD_some]
    omega
  · refine ⟨hh, by simp [hq], ?_, ?_⟩
    · rintro _ ⟨⟩
      exact hdigits
    · rintro _ ⟨⟩
      have := total.le
      rw [← hh.length, ← hq, htotal]
      exact this

theorem fromParts_ok {h q : String} {host : HostSpan} (port : PortSpan) (hh : host.Spans h)
    (hq : port.length.val = ByteString.len q) (hb : ByteString.len h + ByteString.len q ≤ maxU8) :
    fromParts host (some port) = .ok ⟨host, some port⟩ := by
  have hhost := hh.length
  let total : ShortLength :=
    ⟨host.length.val + port.length.val, Nat.add_pos_left host.length.pos _, by omega⟩
  have hadd : host.length.checkedAdd port.length.val = some total :=
    Length.checkedAdd_eq_some.mpr rfl
  rw [fromParts, hadd, Outcome.okOr_some, Outcome.ok_bind]

theorem spans_host {h : String} {host : HostSpan} (hh : host.Spans h) :
    Spans h none ⟨host, none⟩ :=
  ⟨hh, rfl, by simp, by simp⟩

theorem fromAmbiguous_none_sat {h : String} {span : HostOrPathSpan}
    (hs : HostSpan.Ambiguous h span) :
    (fromAmbiguous span none).Sat (Spans h none) fun e => e.index ≤ ByteString.len h := by
  apply Outcome.Sat.bind (HostSpan.tryFrom_sat hs)
  intro host hhost
  exact spans_host hhost

/-- The port of a domain has been read as a port if it has no byte of a tag. -/
theorem fromAmbiguous_some_sat {h q rest : String} {span : HostOrPathSpan} {port : PortOrTagSpan}
    (hs : HostSpan.Ambiguous h span) (hport : port.Spans .port q rest)
    (hq : asBytes q ∈ portNumber) :
    (fromAmbiguous span (some port)).Sat (Spans h (some q))
      fun e => e.index ≤ ByteString.len (text h (some q)) := by
  have hle : ByteString.len h + ByteString.len q ≤ ByteString.len (text h (some q)) := by
    rw [len_text]
    simp only [Option.map_some, Option.getD_some]
    omega
  refine Outcome.Sat.bind ((HostSpan.tryFrom_sat hs).mono (fun _ hh => hh)
    fun e he => Nat.le_trans he (by omega)) fun host hhost => ?_
  dsimp only
  refine Outcome.Sat.bind ((PortSpan.tryFrom_sat hport).mono (fun p hp => hp)
    fun e he => Nat.le_trans he (by omega)) fun p hp => ?_
  exact fromParts_sat p hhost (by rw [hp.1]; exact hport.len) hq

theorem fromAmbiguous_none_ok {h : String} {span : HostOrPathSpan}
    (hs : HostSpan.Ambiguous h span) (hp : span.kind ≠ .path) (ha : span.kind ≠ .any) :
    ∃ d, fromAmbiguous span none = .ok d ∧ Spans h none d := by
  obtain ⟨host, hhost, hspans⟩ := HostSpan.tryFrom_ok hs hp ha
  refine ⟨⟨host, none⟩, ?_, spans_host hspans⟩
  rw [fromAmbiguous, hhost]
  rfl

theorem fromAmbiguous_some_ok {h q rest : String} {span : HostOrPathSpan} {port : PortOrTagSpan}
    (hs : HostSpan.Ambiguous h span) (hp : span.kind ≠ .path) (ha : span.kind ≠ .any)
    (hport : port.Spans .port q rest) (hq : asBytes q ∈ portNumber) (hk : port.kind = .port)
    (hb : ByteString.len h + ByteString.len q ≤ maxU8) :
    ∃ d, fromAmbiguous span (some port) = .ok d ∧ Spans h (some q) d := by
  obtain ⟨host, hhost, hspans⟩ := HostSpan.tryFrom_ok hs hp ha
  have hlen : port.length.val = ByteString.len q := hport.len
  have hparts := fromParts_ok ⟨port.length⟩ hspans hlen hb
  refine ⟨⟨host, some ⟨port.length⟩⟩, ?_,
    (fromParts_sat ⟨port.length⟩ hspans hlen hq).of_ok hparts⟩
  have htry : PortSpan.tryFrom port = .ok ⟨port.length⟩ := by
    rw [PortSpan.tryFrom, PortOrTagSpan.narrow, hk]
    rfl
  rw [fromAmbiguous, hhost, Outcome.ok_bind]
  dsimp only
  rw [htry, Outcome.ok_bind, Outcome.ok_bind, hparts]

/-- After a host and a colon a port is read. -/
theorem new_colon {h tail : String} {host : HostSpan}
    (hhost : HostSpan.new (h ++ (":" ++ tail)) = .ok host)
    (hlen : host.length.val = ByteString.len h) :
    new (h ++ (":" ++ tail)) = (PortSpan.new tail).mapErr (fun e =>
        (⟨saturatingAddU16 (ByteString.len h) e.index, e.kind⟩ : Error)) >>=
      fun port => fromParts host (some port) := by
  have hhead : (asBytes (":" ++ tail)).head? = some (byte ':') := head?_sep ":" rfl tail
  have hcolon : ByteString.len (h ++ ":") = ByteString.len h + 1 := len_append h ":"
  have hslice : (sliceFrom (h ++ (":" ++ tail)) (ByteString.len h + 1) : Outcome Error String) =
      .ok tail := by
    rw [← String.append_assoc, ← hcolon, sliceFrom_append]
  rw [new, hhost, Outcome.ok_bind, hlen, getElem?_append_len, hhead]
  dsimp only
  rw [if_pos rfl, hslice, Outcome.ok_bind]
  rfl

/-- The standalone parser reads a host and the text of a tag after it. -/
theorem new_text_ok {k : Host.Kind} {h : String} {p : Option String}
    (ht : HostSpan.HostText k h) (hlen : ByteString.len h ≤ maxU8)
    (htext : ∀ q, p = some q → TagText (asBytes q))
    (hlimit : ∀ q, p = some q → kindOf .port (asBytes q) = .tag → ByteString.len q ≤ 129)
    (hbound : ∀ q, p = some q → ByteString.len h + ByteString.len q ≤ maxU8) :
    ∃ d, new (text h p) = .ok d ∧ Reads h p d := by
  cases p with
  | none =>
    obtain ⟨host, hhost, hspans⟩ := HostSpan.new_ok "" ht hlen (stopsAt_nil _)
    refine ⟨⟨host, none⟩, ?_, (spans_host hspans).reads⟩
    have hnext : (asBytes (h ++ ""))[ByteString.len h]? = none := by
      rw [getElem?_append_len]
      rfl
    rw [text, ← String.append_empty (s := h), new, hhost, Outcome.ok_bind, hspans.length, hnext]
    rfl
  | some q =>
    obtain ⟨host, hhost, hspans⟩ := HostSpan.new_ok (":" ++ q) ht hlen
      (stopsAt_sep ":" rfl rfl q)
    have hb := hbound q rfl
    obtain ⟨port, hport, hplen⟩ := PortSpan.new_text_ok "" (htext q rfl) (by omega)
      (hlimit q rfl) (stopsAt_nil _) (by simp)
    have hparts := fromParts_ok port hspans hplen hb
    refine ⟨⟨host, some port⟩, ?_, hspans, congrArg some hplen, htext, hlimit, hbound⟩
    rw [String.append_empty] at hport
    rw [text, String.append_assoc, new_colon hhost hspans.length, hport, Outcome.mapErr_ok,
      Outcome.ok_bind, hparts]

/-- The standalone parser reads every domain to its end. -/
theorem new_ok {k : Host.Kind} {h : String} {p : Option String} (ht : HostSpan.HostText k h)
    (hlen : ByteString.len h ≤ maxU8) (hdigits : ∀ q, p = some q → asBytes q ∈ portNumber)
    (hbound : ∀ q, p = some q → ByteString.len h + ByteString.len q ≤ maxU8) :
    ∃ d, new (text h p) = .ok d ∧ Spans h p d := by
  have hport := fun q hq => PortSpan.mem_portNumber.mp (hdigits q hq)
  obtain ⟨d, hd, hr⟩ := new_text_ok ht hlen (fun q hq => (hport q hq).1)
    (fun q hq hk => by cases (hport q hq).2.symm.trans hk) hbound
  exact ⟨d, hd, hr.spans hdigits⟩

theorem fromParts_eq_ok {host : HostSpan} {port : Option PortSpan} {d : DomainSpan}
    (h : fromParts host port = .ok d) : d = ⟨host, port⟩ ∧ d.Checked := by
  cases port with
  | none =>
    obtain rfl := Outcome.ok.inj h
    exact ⟨rfl, by simp [Checked]⟩
  | some port =>
    obtain ⟨total, htotal, hd⟩ := Outcome.bind_eq_ok.mp h
    have hsum := Length.checkedAdd_eq_some.mp (Outcome.okOr_eq_ok.mp htotal)
    obtain rfl := Outcome.ok.inj hd
    refine ⟨rfl, ?_⟩
    rintro _ ⟨⟩
    exact hsum ▸ total.le

/-- What is read after a colon. -/
theorem reads_of_port {h tail : String} {host : HostSpan} {d : DomainSpan}
    (hspans : host.Spans h) (hhost : HostSpan.new (h ++ (":" ++ tail)) = .ok host)
    (hnew : new (h ++ (":" ++ tail)) = .ok d) :
    ∃ q rest, tail = q ++ rest ∧ Reads h (some q) d ∧ StopsAt isStop (asBytes rest) := by
  rw [new_colon hhost hspans.length] at hnew
  obtain ⟨port, hport, hparts⟩ := Outcome.bind_eq_ok.mp hnew
  obtain ⟨q, rest, rfl, hlen, htext, hlimit, hstop⟩ :=
    PortSpan.new_eq_ok (Outcome.mapErr_eq_ok.mp hport)
  obtain ⟨rfl, hchecked⟩ := fromParts_eq_ok hparts
  have hbound := hchecked port rfl
  dsimp only at hbound
  rw [hspans.length, hlen] at hbound
  refine ⟨q, rest, rfl, ⟨hspans, congrArg some hlen, ?_, ?_, ?_⟩, hstop⟩
  · rintro _ ⟨⟩
    exact htext
  · rintro _ ⟨⟩
    exact hlimit
  · rintro _ ⟨⟩
    exact hbound

/-- What is read where no colon follows the host. -/
theorem reads_of_host {h rest : String} {host : HostSpan} {d : DomainSpan}
    (hspans : host.Spans h) (hhost : HostSpan.new (h ++ rest) = .ok host)
    (hcolon : (asBytes rest).head? ≠ some (byte ':')) (hnew : new (h ++ rest) = .ok d) :
    Reads h none d ∧ StopsAt isStop (asBytes rest) := by
  rw [new, hhost, Outcome.ok_bind, hspans.length, getElem?_append_len] at hnew
  cases hnext : (asBytes rest).head? with
  | none =>
    rw [hnext] at hnew
    obtain rfl := Outcome.ok.inj hnew
    exact ⟨(spans_host hspans).reads, stopsAt_of_head?_none hnext⟩
  | some c =>
    rw [hnext] at hnew hcolon
    have hc : c ≠ byte ':' := fun hc => hcolon (congrArg some hc)
    dsimp only at hnew
    rw [if_neg hc] at hnew
    split at hnew
    · rename_i hend
      obtain rfl := Outcome.ok.inj hnew
      refine ⟨(spans_host hspans).reads, stopsAt_of_head? hnext ?_⟩
      rw [isStop]
      rcases hend with rfl | rfl <;> rfl
    · cases hnew

/-- What the standalone parser reads, and where it stops. -/
theorem new_eq_ok {src : String} {d : DomainSpan} (hnew : new src = .ok d) :
    ∃ h p rest, src = text h p ++ rest ∧ Reads h p d ∧ StopsAt isStop (asBytes rest) := by
  have hall := hnew
  obtain ⟨host, hhost, -⟩ := Outcome.bind_eq_ok.mp hall
  obtain ⟨h, rest, rfl, hspans⟩ := HostSpan.new_eq_ok hhost
  by_cases hcolon : (asBytes rest).head? = some (byte ':')
  · obtain ⟨tail, rfl⟩ := exists_append_of_head ":" hcolon rfl (by decide)
    obtain ⟨q, rest, rfl, hreads, hstop⟩ := reads_of_port hspans hhost hnew
    refine ⟨h, some q, rest, ?_, hreads, hstop⟩
    simp only [text, String.append_assoc]
  · obtain ⟨hreads, hstop⟩ := reads_of_host hspans hhost hcolon hnew
    exact ⟨h, none, rest, rfl, hreads, hstop⟩

end DomainSpan

structure Domain where
  src : String
  span : DomainSpan
  deriving DecidableEq, Repr

namespace Domain

def toStr (domain : Domain) : String := domain.src

def fromSpan {ε : Type u} (span : DomainSpan) (src : String) : Outcome ε Domain := do
  Outcome.assert (span.len = ByteString.len src)
  .ok ⟨src, span⟩

def new (src : String) : Outcome Error Domain := do
  let span ← DomainSpan.new src
  let text ← sliceTo src span.len
  fromSpan span text

/-- checks that the entire string is parsed -/
def fromExactMatch (src : String) : Outcome Error Domain := do
  let result ← new src
  if ByteString.len result.src ≠ ByteString.len src then
    .err ⟨result.span.shortLen.val, .hostInvalidChar⟩
  else .ok result

def host {ε : Type u} (domain : Domain) : Outcome ε Host := do
  let text ← sliceTo domain.src domain.span.host.length.val
  Host.fromSpan text domain.span.host

/-- Not including any leading `:`. -/
def port {ε : Type u} (domain : Domain) : Outcome ε (Option String) :=
  match domain.span.port with
  | none => .ok none
  | some port => do
    let start := domain.span.host.length.val + 1
    let result := getRange domain.src start (start + port.length.val)
    Outcome.assert (result.isSome = true)
    .ok result

open DomainSpan

theorem port_of_reads {ε : Type u} {h : String} {p : Option String} {d : DomainSpan}
    (hr : d.Reads h p) : port (ε := ε) ⟨text h p, d⟩ = .ok p := by
  have hport := hr.port
  rw [port]
  cases p with
  | none => rw [Option.map_eq_none_iff.mp hport]
  | some q =>
    obtain ⟨span, hspan, hlen⟩ := Option.map_eq_some_iff.mp hport
    have hcolon : ByteString.len h + 1 = ByteString.len (h ++ ":") := (len_append h ":").symm
    have hget := getRange_append (h ++ ":") q ""
    rw [String.append_empty, ← hcolon, ← hr.host.length, ← hlen] at hget
    rw [hspan]
    dsimp only
    rw [text, hget]
    rfl

theorem new_of_reads {h : String} {p : Option String} {rest : String} {d : DomainSpan}
    (hnew : DomainSpan.new (text h p ++ rest) = .ok d) (hr : d.Reads h p) :
    new (text h p ++ rest) = .ok ⟨text h p, d⟩ := by
  have hlen := hr.len
  rw [new, hnew, Outcome.ok_bind, hlen, sliceTo_append, Outcome.ok_bind, fromSpan,
    Outcome.assert_true hlen, Outcome.ok_bind]

/-- What the domain parser reads, and where it stops. -/
theorem new_eq_ok {src : String} {domain : Domain} (hnew : new src = .ok domain) :
    ∃ h p rest, src = text h p ++ rest ∧ domain.src = text h p ∧ domain.span.Reads h p ∧
      StopsAt isStop (asBytes rest) := by
  obtain ⟨d, hd, -⟩ := Outcome.bind_eq_ok.mp hnew
  obtain ⟨h, p, rest, rfl, hr, hstop⟩ := DomainSpan.new_eq_ok hd
  obtain rfl := Outcome.ok.inj ((new_of_reads hd hr).symm.trans hnew)
  exact ⟨h, p, rest, rfl, rfl, hr, hstop⟩

end Domain

end ContainerImageDistRef
