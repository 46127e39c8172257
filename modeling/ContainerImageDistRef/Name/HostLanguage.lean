import ContainerImageDistRef.Name.Domain.Ipv6.Scanning
import ContainerImageDistRef.Name.DomainLanguage

/-!
# Where a host ends

The scan of a name stops at `:`, `/` or `@` and rejects every other byte it
cannot read. The scan of a bracketed literal is over with its closing bracket,
whatever follows.
-/

namespace ContainerImageDistRef

open ByteString Grammar Groups HostOrPath Ipv6

namespace HostSpan

/-- The part of a text up to the first `:`, `/` or `@` outside of brackets. -/
def hostPart (w : List UInt8) : List UInt8 :=
  if w.head? = some (byte '[') then
    w.takeWhile (· != byte ']') ++ before isStop (w.dropWhile (· != byte ']'))
  else before isStop w

/-- A host is read up to a stopping point only, and it is read where it is a host. -/
structure StopsSound (src : String) : Prop where
  stops : ∀ span, new src = .ok span → span.length.val = len src ∨
    ∃ c, (asBytes src)[span.length.val]? = some c ∧ isStop c = true
  accepts : (new src).Succeeds ↔ ∃ h, asBytes h = hostPart (asBytes src) ∧ IsHost h

/-- A bracketed literal that ends within 255 bytes, and behind it a byte that is no stopping
point. Between the brackets there are hex digits and seven colons or a pair of them. -/
def Overrun (src : String) : Prop :=
  ∃ w c rest, asBytes src = byte '[' :: (w ++ byte ']' :: c :: rest) ∧ w.length + 2 ≤ maxU8 ∧
    Legal w ∧ (w.count (byte ':') = 7 ∨ Doubled (byte ':') w) ∧ isStop c = false

theorem overrun_iff {src : String} : Overrun src ↔
    ∃ h rest c, src = h ++ rest ∧ Ipv6Literal h ∧ (asBytes rest).head? = some c ∧
      isStop c = false := by
  constructor
  · rintro ⟨w, c, rest, hsrc, hlen, hlegal, hcolons, hc⟩
    have hsplit : asBytes src = (byte '[' :: (w ++ [byte ']'])) ++ c :: rest := by simpa using hsrc
    obtain ⟨h, tail, rfl, hh, htail⟩ :=
      exists_append_of_ascii hsplit (ascii_of_bracketed hlegal.inner)
    refine ⟨h, tail, c, rfl, (Ipv6Span.ipv6Literal_iff hh).mpr ⟨hlen, hlegal, hcolons⟩, ?_, hc⟩
    rw [htail]
    rfl
  · rintro ⟨h, tail, c, rfl, hliteral, hhead, hc⟩
    obtain ⟨w, hh, -⟩ := hliteral.bytes
    obtain ⟨hlen, hlegal, hcolons⟩ := (Ipv6Span.ipv6Literal_iff hh).mp hliteral
    obtain ⟨rest, hrest⟩ := List.head?_eq_some_iff.mp hhead
    refine ⟨w, c, rest, ?_, hlen, hlegal, hcolons, hc⟩
    rw [asBytes_append, hh, hrest]
    simp

theorem hostPart_split (w : List UInt8) : ∃ rest, w = hostPart w ++ rest ∧ StopsAt isStop rest := by
  rw [hostPart]
  split
  · obtain ⟨rest, hrest, hstop⟩ := exists_before isStop (w.dropWhile (· != byte ']'))
    refine ⟨rest, ?_, hstop⟩
    rw [List.append_assoc, ← hrest, List.takeWhile_append_dropWhile]
  · exact exists_before isStop w

theorem hostPart_name {h : List UInt8} {rest : List UInt8} (hh : h ∈ domainName)
    (hstop : StopsAt isStop rest) : hostPart (h ++ rest) = h := by
  have hbracket : ∀ c, isAlnum c = true → c ≠ byte '[' := forall_byte (by decide)
  obtain ⟨c, hc, halnum⟩ := head_of_mem_domainName hh
  have hhead : (h ++ rest).head? ≠ some (byte '[') := by
    rw [List.head?_append, hc]
    exact fun heq => hbracket c halnum (Option.some.inj heq)
  rw [hostPart, if_neg hhead]
  exact before_append (not_isStop_of_mem (Or.inl hh)) hstop

theorem hostPart_literal {h : String} {rest : List UInt8} (hh : Ipv6Literal h)
    (hstop : StopsAt isStop rest) : hostPart (asBytes h ++ rest) = asBytes h := by
  have hinner : ∀ c, Ipv6.isInner c = true → (c != byte ']') = true := forall_byte (by decide)
  obtain ⟨inner, hbytes, hall⟩ := hh.bytes
  have hbefore : ∀ c ∈ byte '[' :: inner, (c != byte ']') = true := by
    intro c hc
    rcases List.mem_cons.mp hc with rfl | hc
    · rfl
    · exact hinner c (hall c hc)
  have hhead : (byte '[' :: inner ++ ([byte ']'] ++ rest)).head? = some (byte '[') := rfl
  have hclose : before isStop ([byte ']'] ++ rest) = [byte ']'] :=
    before_append (List.forall_mem_singleton.mpr rfl) hstop
  rw [hostPart, hbytes, List.append_assoc, if_pos hhead, List.takeWhile_append_of_pos hbefore,
    List.dropWhile_append_of_pos hbefore]
  have htake : ([byte ']'] ++ rest).takeWhile (· != byte ']') = [] := rfl
  have hdrop : ([byte ']'] ++ rest).dropWhile (· != byte ']') = [byte ']'] ++ rest := rfl
  rw [htake, hdrop, hclose, List.append_nil]

/-- What is read for a host: a name up to a stopping point, or a literal. -/
theorem new_cases {src : String} {span : HostSpan} (h : new src = .ok span) :
    ∃ u rest, src = u ++ rest ∧ Spans u span ∧
      (asBytes u ∈ domainName ∧ StopsAt isStop (asBytes rest) ∨ Ipv6Literal u) := by
  obtain ⟨ambiguous, hambiguous, hspan⟩ := Outcome.bind_eq_ok.mp h
  obtain ⟨u, rest, rfl, hs⟩ :=
    (HostOrPathSpan.new_any_sat src).of_ok (Outcome.mapErr_eq_ok.mp hambiguous)
  have hspans := (tryFrom_sat (hs.imp And.right fun hs => hs)).of_ok hspan
  refine ⟨u, rest, rfl, hspans, ?_⟩
  rcases hostText_iff.mp ⟨_, hspans.text⟩ with hname | hliteral
  · rcases hs with ⟨hstop, -⟩ | hs
    · exact Or.inl ⟨hname, hstop⟩
    · exact Or.inr hs.literal
  · exact Or.inr hliteral

/-- Where a literal is read, no stopping point is missed unless it is overrun. -/
theorem stopsAt_of_new {src : String} (hover : ¬Overrun src) {span : HostSpan}
    (h : new src = .ok span) :
    ∃ u rest, src = u ++ rest ∧ Spans u span ∧ StopsAt isStop (asBytes rest) ∧
      hostPart (asBytes src) = asBytes u := by
  obtain ⟨u, rest, rfl, hspans, ⟨hname, hstop⟩ | hliteral⟩ := new_cases h
  · refine ⟨u, rest, rfl, hspans, hstop, ?_⟩
    rw [asBytes_append, hostPart_name hname hstop]
  · have hstop : StopsAt isStop (asBytes rest) := by
      intro c hc
      rw [← Bool.not_eq_false]
      exact fun hfalse => hover (overrun_iff.mpr ⟨u, rest, c, rfl, hliteral, hc, hfalse⟩)
    refine ⟨u, rest, rfl, hspans, hstop, ?_⟩
    rw [asBytes_append, hostPart_literal hliteral hstop]

/-- A text whose host part is a host is read up to there. -/
theorem new_of_hostPart {src h : String} (hh : asBytes h = hostPart (asBytes src))
    (hhost : IsHost h) : (new src).Succeeds := by
  obtain ⟨⟨kind, htext⟩, hlen⟩ := isHost_iff.mp hhost
  obtain ⟨r, hr, hstop⟩ := hostPart_split (asBytes src)
  rw [← hh] at hr
  obtain ⟨u, rest, rfl, hu, rfl⟩ := exists_append_of_ascii hr htext.ascii
  obtain rfl := asBytes_inj.mp hu
  obtain ⟨span, hspan, -⟩ := new_ok rest htext hlen hstop
  exact ⟨span, hspan⟩

/-- An overrun literal is returned all the same. -/
theorem Overrun.not_stops {src : String} (h : Overrun src) :
    ∃ span, new src = .ok span ∧ span.length.val ≠ len src ∧
      ∀ c, (asBytes src)[span.length.val]? = some c → isStop c = false := by
  obtain ⟨u, rest, c, rfl, hliteral, hc, hstop⟩ := overrun_iff.mp h
  obtain ⟨ambiguous, hnew, hs⟩ := HostOrPathSpan.new_ipv6 hliteral rest
  obtain ⟨span, hspan, hspans⟩ := tryFrom_ok (Or.inr hs) (by simp [hs.kind]) (by simp [hs.kind])
  refine ⟨span, ?_, ?_, ?_⟩
  · rw [new, hnew, Outcome.mapErr_ok, Outcome.ok_bind, hspan]
  · rw [hspans.length, len_append]
    intro heq
    have hnil : rest = "" := len_eq_zero.mp (by omega)
    rw [hnil] at hc
    cases hc
  · intro d hd
    rw [hspans.length, getElem?_append_len, hc] at hd
    rwa [← Option.some.inj hd]

/-- The host parser stops where it may unless a literal is followed by a byte that is no
stopping point. -/
theorem stopsSound_iff (src : String) : StopsSound src ↔ ¬Overrun src := by
  constructor
  · intro hsound hover
    obtain ⟨span, hspan, hne, hstop⟩ := hover.not_stops
    rcases hsound.stops span hspan with hlen | ⟨c, hc, htrue⟩
    · exact hne hlen
    · cases (hstop c hc).symm.trans htrue
  · intro hover
    constructor
    · intro span hspan
      obtain ⟨u, rest, rfl, hspans, hstop, -⟩ := stopsAt_of_new hover hspan
      rw [hspans.length, len_append, getElem?_append_len]
      cases hhead : (asBytes rest).head? with
      | none =>
        obtain rfl := head?_eq_none.mp hhead
        exact Or.inl rfl
      | some c => exact Or.inr ⟨c, rfl, hstop c hhead⟩
    · constructor
      · rintro ⟨span, hspan⟩
        obtain ⟨u, rest, rfl, hspans, -, hpart⟩ := stopsAt_of_new hover hspan
        have hlen : len u ≤ maxU8 := hspans.length ▸ span.length.le
        exact ⟨u, hpart.symm, isHost_iff.mpr ⟨⟨_, hspans.text⟩, hlen⟩⟩
      · rintro ⟨h, hh, hhost⟩
        exact new_of_hostPart hh hhost

/-- Behind the bracket anything is let pass. -/
theorem stopsSound_fails :
    new "[::1]x" = .ok ⟨⟨5, by decide, by decide⟩, .ipv6⟩ ∧ ¬StopsSound "[::1]x" := by
  have hnew : new "[::1]x" = .ok ⟨⟨5, by decide, by decide⟩, .ipv6⟩ := by decide +kernel
  refine ⟨hnew, fun h => ?_⟩
  rcases h.stops _ hnew with hlen | ⟨c, hc, hstop⟩
  · exact absurd hlen (by decide)
  · obtain rfl : byte 'x' = c := Option.some.inj hc
    cases hstop

end HostSpan

end ContainerImageDistRef
