import ContainerImageDistRef.Name.Domain

/-!
# The length of a domain

A domain is documented to have at most 255 bytes. What is checked is the sum of
the host and the port, without the colon between them.
-/

namespace ContainerImageDistRef

open ByteString Grammar PortOrTag

namespace DomainSpan

/-- The documented bound on a domain, and that its length is the exact sum. -/
structure WithinLimit (d : DomainSpan) : Prop where
  bound : d.total ≤ maxU8
  exact : d.shortLen.val = d.total

/-- The check lets one length too many pass. -/
theorem Checked.total_le {d : DomainSpan} (h : d.Checked) : d.total ≤ maxU8 + 1 := by
  have hle := d.host.length.le
  rw [total]
  cases hp : d.port with
  | none =>
    simp only [Option.map_none, Option.getD_none]
    omega
  | some p =>
    have hb := h p hp
    simp only [Option.map_some, Option.getD_some]
    omega

theorem Checked.total_ne_iff {d : DomainSpan} (h : d.Checked) :
    d.WithinLimit ↔ d.total ≠ maxU8 + 1 := by
  have hle := h.total_le
  constructor
  · intro hd
    have := hd.bound
    omega
  · intro hne
    exact ⟨by omega, h.shortLen⟩

theorem Reads.isStop {h : String} {p : Option String} {d : DomainSpan} (hr : Reads h p d) :
    ∀ c ∈ asBytes (text h p), isStop c = false := by
  have hhost : ∀ c, isHostByte c = true → PortOrTag.isStop c = false := forall_byte (by decide)
  have htag : ∀ c, isTagByte c = true → PortOrTag.isStop c = false := forall_byte (by decide)
  intro c hc
  cases p with
  | none => exact hhost c (hr.host.text.bytes c hc)
  | some q =>
    simp only [text, asBytes_append, List.mem_append] at hc
    rcases hc with (hc | hc) | hc
    · exact hhost c (hr.host.text.bytes c hc)
    · obtain rfl : c = byte ':' := List.mem_singleton.mp hc
      rfl
    · exact htag c ((hr.tag q rfl).forall c hc)

/-- Where a domain is read, it is all that stands before the first `/` or `@`. -/
theorem length_beforeStop {src : String} {d : DomainSpan} (hnew : new src = .ok d) :
    (before isStop (asBytes src)).length = d.total ∧ d.Checked := by
  obtain ⟨h, p, rest, rfl, hr, hstop⟩ := new_eq_ok hnew
  refine ⟨?_, hr.checked⟩
  rw [asBytes_append, before_append hr.isStop hstop, hr.total, length_asBytes]

theorem host_length {left : HostOrPathSpan} {host : HostSpan}
    (h : HostSpan.tryFrom left = .ok host) : host.length = left.length := by
  rw [HostSpan.tryFrom] at h
  cases hk : left.kind with
  | any =>
    rw [hk] at h
    cases h
  | path =>
    rw [hk] at h
    obtain ⟨span, -, h⟩ := Outcome.bind_eq_ok.mp h
    cases h
  | host | ipV6 | hostOrPath =>
    rw [hk] at h
    obtain rfl := Outcome.ok.inj h
    rfl

theorem port_length {right : PortOrTagSpan} {port : PortSpan}
    (h : PortSpan.tryFrom right = .ok port) : port.length = right.length := by
  obtain ⟨span, hspan, hport⟩ := Outcome.bind_eq_ok.mp h
  obtain ⟨kind, -, hnarrow⟩ := Outcome.bind_eq_ok.mp hspan
  obtain rfl := Outcome.ok.inj hport
  obtain rfl := Outcome.ok.inj hnarrow
  rfl

/-- The bytes of an ambiguous host, and those of an ambiguous port and its colon. -/
def totalOf (left : HostOrPathSpan) (right : Option PortOrTagSpan) : Nat :=
  left.length.val + ((right.map fun p => p.length.val + 1).getD 0)

theorem total_fromAmbiguous {left : HostOrPathSpan} {right : Option PortOrTagSpan}
    {d : DomainSpan} (h : fromAmbiguous left right = .ok d) :
    d.total = totalOf left right ∧ d.Checked := by
  obtain ⟨host, hhost, h⟩ := Outcome.bind_eq_ok.mp h
  cases right with
  | none =>
    have hparts : fromParts host none = .ok d := h
    obtain ⟨rfl, hchecked⟩ := fromParts_eq_ok hparts
    refine ⟨?_, hchecked⟩
    rw [total, totalOf, host_length hhost]
    rfl
  | some right =>
    obtain ⟨port, hport, h⟩ := Outcome.bind_eq_ok.mp h
    have hparts : fromParts host (some port) = .ok d := h
    obtain ⟨rfl, hchecked⟩ := fromParts_eq_ok hparts
    refine ⟨?_, hchecked⟩
    rw [total, totalOf, host_length hhost]
    simp only [Option.map_some, Option.getD_some, port_length hport]

/-- A domain keeps its limit unless host and port have 255 bytes between them, which are 256
with the colon. -/
theorem withinLimit_iff (src : String) (left : HostOrPathSpan) (right : Option PortOrTagSpan)
    (d : DomainSpan) :
    (new src = .ok d → (d.WithinLimit ↔ (before isStop (asBytes src)).length ≠ 256)) ∧
      (fromAmbiguous left right = .ok d →
        (d.WithinLimit ↔ ∀ port, right = some port →
          left.length.val + port.length.val ≠ 255)) := by
  constructor
  · intro hnew
    obtain ⟨hlen, hchecked⟩ := length_beforeStop hnew
    rw [hchecked.total_ne_iff, hlen]
    exact Iff.rfl
  · intro h
    obtain ⟨htotal, hchecked⟩ := total_fromAmbiguous h
    have hleft := left.length.le
    have hmax : maxU8 = 255 := rfl
    rw [hchecked.total_ne_iff, htotal, totalOf]
    cases right with
    | none =>
      simp only [Option.map_none, Option.getD_none]
      constructor
      · intro _ port hport
        cases hport
      · intro _
        omega
    | some right =>
      simp only [Option.map_some, Option.getD_some]
      constructor
      · rintro hne _ ⟨⟩
        omega
      · intro hne
        have := hne right rfl
        omega

theorem withinLimit_iff_localhost :
    ∃ d left right e, new "localhost:5000/a" = .ok d ∧ d.WithinLimit ∧
      HostOrPathSpan.new "localhost:5000/a" .any = .ok left ∧
      PortOrTagSpan.new "5000/a" .port = .ok right ∧
      fromAmbiguous left (some right) = .ok e ∧ e.WithinLimit := by
  obtain ⟨d, hd⟩ : (new "localhost:5000/a").Succeeds := by decide +kernel
  let left : HostOrPathSpan := ⟨⟨9, by decide, by decide⟩, .hostOrPath, 0⟩
  let right : PortOrTagSpan := ⟨⟨4, by decide, by decide⟩, .port, 0⟩
  have hleft : HostOrPathSpan.new "localhost:5000/a" .any = .ok left := by decide +kernel
  have hright : PortOrTagSpan.new "5000/a" .port = .ok right := by decide +kernel
  obtain ⟨e, he⟩ : (fromAmbiguous left (some right)).Succeeds := by decide +kernel
  refine ⟨d, left, right, e, hd, ?_, hleft, hright, he, ?_⟩
  · exact ((withinLimit_iff "localhost:5000/a" left (some right) d).1 hd).mpr (by decide)
  · apply ((withinLimit_iff "localhost:5000/a" left (some right) e).2 he).mpr
    rintro _ ⟨⟩
    decide

/-- A host of 254 bytes with a port of one digit. -/
theorem total_long : (new (String.ofList (List.replicate 254 'a') ++ ":1")).Sat
    (fun d => d.total = 256) fun _ => False := by
  decide +kernel

theorem withinLimit_fails :
    ∃ d, new (String.ofList (List.replicate 254 'a') ++ ":1") = .ok d ∧ d.total = 256 ∧
      ¬d.WithinLimit := by
  obtain ⟨d, hd, htotal⟩ := total_long.exists_ok
  refine ⟨d, hd, htotal, fun h => ?_⟩
  have hbound := h.bound
  rw [htotal] at hbound
  exact absurd hbound (by decide)

end DomainSpan

end ContainerImageDistRef
