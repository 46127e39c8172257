import ContainerImageDistRef.Ambiguous.Segment

/-! # Hosts -/

namespace ContainerImageDistRef

open ByteString Grammar

universe u

namespace Host

inductive Kind where
  /-- a restricted domain name, e.g. "Example.com" -/
  | name
  /-- a restricted IPv6 address wrapped in square brackets -/
  | ipv6
  deriving DecidableEq, Repr

/-- adapt ambiguous error kinds into host-specific error kinds -/
def disambiguateErr (e : Error) : Error :=
  match e.kind with
  | .hostOrPathInvalidChar => ⟨e.index, .hostInvalidChar⟩
  | .hostOrPathTooLong => ⟨e.index, .hostTooLong⟩
  | .hostOrPathMissing => ⟨e.index, .hostMissing⟩
  | kind => ⟨e.index, kind⟩

end Host

structure HostSpan where
  length : ShortLength
  kind : Host.Kind
  deriving DecidableEq, Repr

namespace HostSpan

open Host

/-- `TryFrom<HostOrPathSpan>` -/
def tryFrom (ambiguous : HostOrPathSpan) : Outcome Error HostSpan := do
  let kind ←
    match ambiguous.kind with
    | .host | .hostOrPath => (.ok .name : Outcome Error Kind)
    | .ipV6 => .ok .ipv6
    | .path => do
      let _ ← ambiguous.narrow .host
      .panic .unreachable
    | .any => .panic .unreachable
  .ok ⟨ambiguous.length, kind⟩

def new (src : String) : Outcome Error HostSpan := do
  let ambiguous ← (HostOrPathSpan.new src .any).mapErr disambiguateErr
  tryFrom ambiguous

end HostSpan

/-- The bytes of a domain. -/
def isHostByte (c : UInt8) : Bool :=
  isDomainByte c || c == byte ':' || c == byte '[' || c == byte ']'

namespace HostSpan

open HostOrPath

/-- The texts of a host of each kind. -/
def HostText : Host.Kind → String → Prop
  | .name, h => asBytes h ∈ domainName
  | .ipv6, h => Ipv6Literal h

/-- The span of the host `h`. -/
structure Spans (h : String) (span : HostSpan) : Prop where
  length : span.length.val = len h
  text : HostText span.kind h

theorem HostText.head {k : Host.Kind} {h : String} (ht : HostText k h) :
    ∃ c, (asBytes h).head? = some c ∧
      match k with
      | .name => isAlnum c = true
      | .ipv6 => c = byte '[' := by
  cases k with
  | name => exact head_of_mem_domainName ht
  | ipv6 =>
    obtain ⟨inner, hbytes, -⟩ := Ipv6Literal.bytes ht
    exact ⟨byte '[', by rw [hbytes]; rfl, rfl⟩

/-- The first byte tells a bracketed literal from a domain name. -/
theorem HostText.unique {k k' : Host.Kind} {h : String} (ht : HostText k h)
    (ht' : HostText k' h) : k = k' := by
  have hclass : isAlnum (byte '[') = false := by decide
  obtain ⟨c, hc, hk⟩ := ht.head
  obtain ⟨d, hd, hk'⟩ := ht'.head
  obtain rfl : c = d := Option.some.inj (hc.symm.trans hd)
  cases k <;> cases k' <;> simp_all

theorem hostText_iff {h : String} :
    (∃ kind, HostSpan.HostText kind h) ↔ asBytes h ∈ domainName ∨ Ipv6Literal h := by
  constructor
  · rintro ⟨kind, hkind⟩
    cases kind with
    | name => exact Or.inl hkind
    | ipv6 => exact Or.inr hkind
  · rintro (h | h)
    · exact ⟨.name, h⟩
    · exact ⟨.ipv6, h⟩

/-- The bytes of a host. -/
theorem HostText.bytes {k : Host.Kind} {h : String} (ht : HostText k h) :
    ∀ c ∈ asBytes h, isHostByte c = true := by
  have hinner : ∀ c, Ipv6.isInner c = true → isHostByte c = true :=
    forall_byte (by decide)
  intro c hc
  cases k with
  | name => simp [isHostByte, isDomainByte_of_mem ht c hc]
  | ipv6 =>
    obtain ⟨inner, hbytes, hall⟩ := Ipv6Literal.bytes ht
    rw [hbytes, List.mem_append, List.mem_cons, List.mem_singleton] at hc
    rcases hc with (rfl | hc) | rfl
    · decide
    · exact hinner c (hall c hc)
    · decide

theorem HostText.ascii {k : Host.Kind} {h : String} (ht : HostText k h) :
    ∀ c ∈ asBytes h, c < 128 := by
  have hascii : ∀ c, isHostByte c = true → c < 128 :=
    forall_byte (by decide)
  exact fun c hc => hascii c (ht.bytes c hc)

theorem Spans.unique {h : String} {s t : HostSpan} (hs : Spans h s) (ht : Spans h t) :
    s = t := by
  cases s
  cases t
  simp only [HostSpan.mk.injEq]
  exact ⟨Length.ext (hs.length.trans ht.length.symm), hs.text.unique ht.text⟩

/-- An ambiguous span of a first segment or of a bracketed literal. -/
def Ambiguous (h : String) (span : HostOrPathSpan) : Prop :=
  span.Spans .neutral h ∨ span.SpansIpv6 h

theorem tryFrom_sat {h : String} {span : HostOrPathSpan} (hs : Ambiguous h span) :
    (tryFrom span).Sat (Spans h) fun e => e.index ≤ len h := by
  rcases hs with hs | hs
  · rw [tryFrom, hs.kind]
    cases hf : flavorOf .neutral (asBytes h) with
    | neutral => exact ⟨hs.length, hs.host (by simp [hf])⟩
    | host => exact ⟨hs.length, hs.host (by simp [hf])⟩
    | path =>
      have hk : span.kind = .path := by rw [hs.kind, hf]; rfl
      have hn : span.narrow .host = .err ⟨span.decider, .hostInvalidChar⟩ := by
        rw [HostOrPathSpan.narrow.eq_def, hk]
      simp only [Flavor.kind, hn, Outcome.err_bind]
      exact hs.decider_le
  · rw [tryFrom, hs.kind]
    exact ⟨hs.length, hs.literal⟩

/-- A host is ambiguous until more is known, but never a mere path. -/
theorem ambiguous_ok {k : Host.Kind} {h : String} (rest : String) (ht : HostText k h)
    (hlen : len h ≤ maxU8) (hstop : StopsAt isStop (asBytes rest)) :
    ∃ span, HostOrPathSpan.new (h ++ rest) .any = .ok span ∧ Ambiguous h span ∧
      span.kind ≠ .path ∧ span.kind ≠ .any := by
  cases k with
  | name =>
    have hseg : Segment Kind.any.flavor (asBytes h) := Or.inr ⟨by simp [Kind.flavor], ht⟩
    obtain ⟨span, hspan, hs⟩ :=
      HostOrPathSpan.new_segment .any rest (by simp) hseg hlen hstop
    have hne := flavorOf_ne_path (f := .neutral) (by simp) ht
    refine ⟨span, hspan, Or.inl hs, ?_, ?_⟩
    · rw [hs.kind]
      cases hf : flavorOf .neutral (asBytes h) <;> simp_all [Kind.flavor, Flavor.kind]
    · rw [hs.kind]
      cases flavorOf Kind.any.flavor (asBytes h) <;> simp [Flavor.kind]
  | ipv6 =>
    obtain ⟨span, hspan, hs⟩ := HostOrPathSpan.new_ipv6 ht rest
    exact ⟨span, hspan, Or.inr hs, by simp [hs.kind], by simp [hs.kind]⟩

theorem tryFrom_ok {h : String} {span : HostOrPathSpan} (hs : Ambiguous h span)
    (hp : span.kind ≠ .path) (ha : span.kind ≠ .any) :
    ∃ host, tryFrom span = .ok host ∧ Spans h host := by
  have hsucc : ∃ host, tryFrom span = .ok host := by
    rw [tryFrom]
    cases hk : span.kind <;> first | exact ⟨_, rfl⟩ | contradiction
  obtain ⟨host, hhost⟩ := hsucc
  exact ⟨host, hhost, (tryFrom_sat hs).of_ok hhost⟩

theorem new_ok {k : Host.Kind} {h : String} (rest : String) (ht : HostText k h)
    (hlen : len h ≤ maxU8) (hstop : StopsAt isStop (asBytes rest)) :
    ∃ host, new (h ++ rest) = .ok host ∧ Spans h host := by
  obtain ⟨span, hspan, hs, hp, ha⟩ := ambiguous_ok rest ht hlen hstop
  obtain ⟨host, hhost, hspans⟩ := tryFrom_ok hs hp ha
  refine ⟨host, ?_, hspans⟩
  rw [new, hspan, Outcome.mapErr_ok, Outcome.ok_bind, hhost]

theorem new_eq_ok {src : String} {host : HostSpan} (h : new src = .ok host) :
    ∃ u rest, src = u ++ rest ∧ Spans u host := by
  obtain ⟨span, hspan, hhost⟩ := Outcome.bind_eq_ok.mp h
  obtain ⟨u, rest, rfl, hs⟩ :=
    (HostOrPathSpan.new_any_sat src).of_ok (Outcome.mapErr_eq_ok.mp hspan)
  have hamb : Ambiguous u span := hs.imp And.right fun hs => hs
  exact ⟨u, rest, rfl, (tryFrom_sat hamb).of_ok hhost⟩

/-- A host that is read to its end. -/
theorem spans_of_new {h : String} {host : HostSpan} (hh : new h = .ok host)
    (hlen : host.length.val = len h) : Spans h host := by
  obtain ⟨u, rest, hsrc, hspans⟩ := new_eq_ok hh
  have hsplit : h ++ "" = u ++ rest := by rw [String.append_empty, hsrc]
  obtain ⟨rfl, -⟩ := append_inj hsplit (hlen.symm.trans hspans.length)
  exact hspans

end HostSpan

/-- `Host<'src>(Kind, &'src str)` -/
structure Host where
  kind : Host.Kind
  src : String
  deriving DecidableEq, Repr

namespace Host

def toStr (host : Host) : String := host.src

def fromSpan {ε : Type u} (src : String) (span : HostSpan) : Outcome ε Host := do
  Outcome.assert (span.length.val = len src)
  let text ← sliceTo src span.length.val
  .ok ⟨span.kind, text⟩

def new (src : String) : Outcome Error Host := do
  let span ← HostSpan.new src
  fromSpan src span

/-- `Host::short_len`, which unwraps and asserts -/
def shortLen (host : Host) : Outcome Error ShortLength :=
  match ShortLength.new (len host.src) with
  | some length => .ok length
  | none => .panic .unwrap

/-- checks that the entire source string is consumed -/
def fromExactMatch (src : String) : Outcome Error Host := do
  let result ← new src
  if len result.src ≠ len src then do
    let length ← result.shortLen
    .err ⟨length.val, .hostInvalidChar⟩
  else .ok result

end Host

end ContainerImageDistRef
