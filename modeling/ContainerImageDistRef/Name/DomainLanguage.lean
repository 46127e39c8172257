import ContainerImageDistRef.Name.Domain

/-!
# The language of the domain parser

The standalone parser takes the length of what the ambiguous scanner has read
and leaves its kind behind, so a tag after a host is read for a port.
-/

namespace ContainerImageDistRef

open ByteString Grammar PortOrTag

/-- A domain name that fits its length, or a bracketed literal. -/
def IsHost (h : String) : Prop := asBytes h ∈ domainName ∧ len h ≤ maxU8 ∨ Ipv6Literal h

/-- A host, and a port number after a colon if there is one. -/
def IsDomain (d : String) : Prop :=
  ∃ h p, d = DomainSpan.text h p ∧ IsHost h ∧ ∀ q, p = some q → asBytes q ∈ portNumber

/-- The domain parser accepts the domains, and a port of it is a number. -/
structure Domain.Exact (d : String) : Prop where
  accepts : (Domain.fromExactMatch d).Succeeds ↔ IsDomain d
  digits : ∀ domain q, Domain.new d = .ok domain →
    domain.port (ε := Empty) = .ok (some q) → asBytes q ∈ portNumber

/-- A host, and after a colon a tag that is no number and as long as the parser allows. -/
def TagAsPort (d : String) : Prop :=
  ∃ h t, d = h ++ ":" ++ t ∧ IsHost h ∧ TagText (asBytes t) ∧ asBytes t ∉ portNumber ∧
    len t ≤ 129 ∧ len h + len t ≤ maxU8

theorem isHost_iff {h : String} :
    IsHost h ↔ (∃ kind, HostSpan.HostText kind h) ∧ len h ≤ maxU8 := by
  rw [HostSpan.hostText_iff, IsHost]
  constructor
  · rintro (⟨hname, hlen⟩ | hlit)
    · exact ⟨Or.inl hname, hlen⟩
    · obtain ⟨span, -, hlen⟩ := id hlit
      exact ⟨Or.inr hlit, hlen ▸ span.length.le⟩
  · rintro ⟨hname | hlit, hlen⟩
    · exact Or.inl ⟨hname, hlen⟩
    · exact Or.inr hlit

namespace Domain

/-- Where nothing in the text ends a domain early, the parser reads all of it. -/
theorem new_all {d : String} {domain : Domain} (hslash : byte '/' ∉ asBytes d)
    (hat : byte '@' ∉ asBytes d) (hnew : new d = .ok domain) :
    domain.src = d ∧ ∃ h p, d = DomainSpan.text h p ∧ domain.span.Reads h p := by
  obtain ⟨h, p, rest, rfl, hsrc, hr, hstop⟩ := new_eq_ok hnew
  obtain rfl : rest = "" := by
    apply hstop.eq_empty
    intro c hc
    rw [asBytes_append, List.mem_append, not_or] at hslash hat
    simp only [isStop, Bool.or_eq_false_iff, beq_eq_false_iff_ne]
    exact ⟨fun h => hslash.2 (h ▸ hc), fun h => hat.2 (h ▸ hc)⟩
  rw [String.append_empty]
  exact ⟨hsrc, h, p, rfl, hr⟩

theorem fromExactMatch_iff {d : String} (hslash : byte '/' ∉ asBytes d)
    (hat : byte '@' ∉ asBytes d) : (fromExactMatch d).Succeeds ↔ (new d).Succeeds := by
  rw [fromExactMatch]
  constructor
  · rintro ⟨domain, hexact⟩
    obtain ⟨result, hnew, -⟩ := Outcome.bind_eq_ok.mp hexact
    exact ⟨result, hnew⟩
  · rintro ⟨domain, hnew⟩
    have hlen : ¬len domain.src ≠ len d := by
      rw [(new_all hslash hat hnew).1]
      exact not_not.mpr rfl
    rw [hnew, Outcome.ok_bind, if_neg hlen]
    exact ⟨domain, rfl⟩

/-- A port in the sense of the parser: as short as its kind and the host before it allow. -/
structure PortText (h q : String) : Prop where
  tag : TagText (asBytes q)
  limit : kindOf .port (asBytes q) = .tag → len q ≤ 129
  bound : len h + len q ≤ maxU8

theorem new_text {h : String} {p : Option String} (hhost : IsHost h)
    (hport : ∀ q, p = some q → PortText h q) :
    ∃ span, new (DomainSpan.text h p) = .ok ⟨DomainSpan.text h p, span⟩ ∧ span.Reads h p := by
  obtain ⟨⟨kind, hkind⟩, hlen⟩ := isHost_iff.mp hhost
  obtain ⟨span, hspan, hr⟩ := DomainSpan.new_text_ok hkind hlen (fun q hq => (hport q hq).tag)
    (fun q hq => (hport q hq).limit) fun q hq => (hport q hq).bound
  rw [← String.append_empty (s := DomainSpan.text h p)] at hspan
  have hnew := new_of_reads hspan hr
  rw [String.append_empty] at hnew
  exact ⟨span, hnew, hr⟩

/-- The texts that the parser reads to their ends. -/
theorem new_iff {d : String} (hslash : byte '/' ∉ asBytes d) (hat : byte '@' ∉ asBytes d) :
    (new d).Succeeds ↔ ∃ h p, d = DomainSpan.text h p ∧ IsHost h ∧
      ∀ q, p = some q → PortText h q := by
  constructor
  · rintro ⟨domain, hnew⟩
    obtain ⟨-, h, p, rfl, hr⟩ := new_all hslash hat hnew
    have hlen : len h ≤ maxU8 := hr.host.length ▸ domain.span.host.length.le
    exact ⟨h, p, rfl, isHost_iff.mpr ⟨⟨_, hr.host.text⟩, hlen⟩,
      fun q hq => ⟨hr.tag q hq, hr.limit q hq, hr.bound q hq⟩⟩
  · rintro ⟨h, p, rfl, hhost, hport⟩
    obtain ⟨span, hnew, -⟩ := new_text hhost hport
    exact ⟨_, hnew⟩

theorem not_portNumber {q : String} (htext : TagText (asBytes q)) (hq : asBytes q ∉ portNumber) :
    kindOf .port (asBytes q) = .tag := by
  cases hk : kindOf .port (asBytes q) with
  | port => exact absurd (PortSpan.mem_portNumber.mpr ⟨htext, hk⟩) hq
  | tag => rfl

theorem portText_of_portNumber {h q : String} (hq : asBytes q ∈ portNumber)
    (hbound : len h + len q ≤ maxU8) : PortText h q := by
  obtain ⟨htext, hk⟩ := PortSpan.mem_portNumber.mp hq
  refine ⟨htext, fun htag => ?_, hbound⟩
  cases hk.symm.trans htag

/-- Where no tag stands for the port, the port is a number. -/
theorem portNumber_of_portText {d h q : String} (hnot : ¬TagAsPort d)
    (hd : d = DomainSpan.text h (some q)) (hhost : IsHost h) (hport : PortText h q) :
    asBytes q ∈ portNumber := by
  by_contra hq
  exact hnot ⟨h, q, hd, hhost, hport.tag, hq, hport.limit (not_portNumber hport.tag hq),
    hport.bound⟩

theorem accepts_of_not_tagAsPort {d : String} (hslash : byte '/' ∉ asBytes d)
    (hat : byte '@' ∉ asBytes d) (hnot : ¬TagAsPort d)
    (hlen : ∀ h q, d = h ++ ":" ++ q → IsHost h → asBytes q ∈ portNumber →
      len h + len q ≤ maxU8) : (fromExactMatch d).Succeeds ↔ IsDomain d := by
  rw [fromExactMatch_iff hslash hat, new_iff hslash hat, IsDomain]
  constructor
  · rintro ⟨h, p, hd, hhost, hport⟩
    refine ⟨h, p, hd, hhost, ?_⟩
    rintro q rfl
    exact portNumber_of_portText hnot hd hhost (hport q rfl)
  · rintro ⟨h, p, hd, hhost, hport⟩
    refine ⟨h, p, hd, hhost, ?_⟩
    rintro q rfl
    exact portText_of_portNumber (hport q rfl) (hlen h q hd hhost (hport q rfl))

/-- The domain parser is exact unless a tag stands where the port would be. -/
theorem exact_iff {d : String} (hslash : byte '/' ∉ asBytes d) (hat : byte '@' ∉ asBytes d)
    (hlen : ∀ h q, d = h ++ ":" ++ q → IsHost h → asBytes q ∈ portNumber →
      len h + len q ≤ maxU8) :
    Exact d ↔ ¬TagAsPort d := by
  constructor
  · rintro hexact ⟨h, t, rfl, hhost, htext, hnot, hle, hbound⟩
    have hport : ∀ q, some t = some q → PortText h q := by
      rintro _ ⟨⟩
      exact ⟨htext, fun _ => hle, hbound⟩
    obtain ⟨span, hnew, hr⟩ := new_text hhost hport
    exact hnot (hexact.digits _ t hnew (port_of_reads hr))
  · intro hnot
    refine ⟨accepts_of_not_tagAsPort hslash hat hnot hlen, ?_⟩
    intro domain q hnew hq
    obtain ⟨hsrc, h, p, rfl, hr⟩ := new_all hslash hat hnew
    have hdomain : domain = ⟨DomainSpan.text h p, domain.span⟩ := by
      cases domain
      cases hsrc
      rfl
    rw [hdomain, port_of_reads hr] at hq
    obtain rfl : p = some q := Outcome.ok.inj hq
    have hshort : len h ≤ maxU8 := hr.host.length ▸ domain.span.host.length.le
    exact portNumber_of_portText hnot rfl (isHost_iff.mpr ⟨⟨_, hr.host.text⟩, hshort⟩)
      ⟨hr.tag q rfl, hr.limit q rfl, hr.bound q rfl⟩

theorem exact_iff_localhost : Exact "localhost:5000" ↔ ¬TagAsPort "localhost:5000" := by
  refine exact_iff (by decide) (by decide) fun h q hd _ _ => ?_
  have hlen : len "localhost:5000" = len h + 1 + len q := by
    rw [hd, len_append, len_append]
    rfl
  have htext : len "localhost:5000" = 14 := by decide
  have hmax : 14 ≤ maxU8 := by decide
  omega

/-- The tag of a reference without a domain is read for a port. -/
theorem exact_fails :
    (∃ domain, fromExactMatch "a:b" = .ok domain ∧ domain.port (ε := Empty) = .ok (some "b")) ∧
      ¬Exact "a:b" := by
  have hexact : fromExactMatch "a:b" =
      .ok ⟨"a:b", ⟨⟨ShortLength.one, .name⟩, some ⟨ShortLength.one⟩⟩⟩ := by decide +kernel
  have hnew : new "a:b" = .ok ⟨"a:b", ⟨⟨ShortLength.one, .name⟩, some ⟨ShortLength.one⟩⟩⟩ := by
    decide +kernel
  have hport : port (ε := Empty) ⟨"a:b", ⟨⟨ShortLength.one, .name⟩, some ⟨ShortLength.one⟩⟩⟩ =
      .ok (some "b") := by decide +kernel
  refine ⟨⟨_, hexact, hport⟩, fun h => ?_⟩
  have hdigits := h.digits _ "b" hnew hport
  rw [PortSpan.mem_portNumber] at hdigits
  cases hdigits.2

end Domain

end ContainerImageDistRef
