import ContainerImageDistRef.Digest.AlgorithmErrors

/-!
# Algorithms longer than a u8 can count

The loop over the components ends where a colon or the end of the text is
reached, and where 255 bytes have been read. Inside a component the second end
is noticed; at a separator it is taken for the first.
-/

namespace ContainerImageDistRef

open ByteString ViablePrefix

namespace Algorithm

open Digest AlgorithmSpan

/-- What is read is followed by a colon or by nothing, and a longer algorithm is not read. -/
structure Untruncated (src : String) : Prop where
  stops : ∀ a c, new src = .ok (a, c) →
    ∃ rest, src = a.src ++ rest ∧ StopsAt isEnd (asBytes rest)
  long : ∀ a rest, src = a ++ rest → asBytes a ∈ accepted → StopsAt isEnd (asBytes rest) →
    maxU8 < len a → ¬(new src).Succeeds

/-- The first 255 bytes are an algorithm, and a separator follows them. -/
def CutAtSeparator (src : String) : Prop :=
  (asBytes src).take maxU8 ∈ accepted ∧
    ∃ b, (asBytes src)[maxU8]? = some b ∧ isSeparator b = true

theorem cutAtSeparator_append {a rest : String} (hlen : len a = maxU8) :
    CutAtSeparator (a ++ rest) ↔
      asBytes a ∈ accepted ∧ ∃ b, (asBytes rest).head? = some b ∧ isSeparator b = true := by
  rw [CutAtSeparator, ← hlen, getElem?_append_len, asBytes_append, ← length_asBytes,
    List.take_left]

/-- A text with a separator after 255 bytes can be split there. -/
theorem CutAtSeparator.exists_append {src : String} (h : CutAtSeparator src) :
    ∃ a rest, src = a ++ rest ∧ len a = maxU8 := by
  obtain ⟨⟨c, hthreads⟩, b, hb, -⟩ := h
  obtain ⟨hlt, -⟩ := List.getElem?_eq_some_iff.mp hb
  obtain ⟨a, rest, rfl, ha, -⟩ := exists_append_of_ascii (List.take_append_drop maxU8 _).symm
    fun d hd => (hthreads.ascii d hd).1
  refine ⟨a, rest, rfl, ?_⟩
  rw [← length_asBytes, ha, List.length_take]
  omega

/-- Such a text is read up to the separator. -/
theorem new_of_cutAtSeparator {a rest : String} (hlen : len a = maxU8)
    (ha : asBytes a ∈ accepted) {b : UInt8} (hhead : (asBytes rest).head? = some b)
    (hb : isSeparator b = true) : ∃ c, new (a ++ rest) = .ok (⟨a⟩, c) := by
  obtain ⟨c, hthreads⟩ := ha
  have hend : EndsAt a rest :=
    ⟨stopsAt_of_head? hhead (ascii_of_isSeparator b hb).2.2, Or.inl hlen⟩
  obtain ⟨span, hspan, hspanlen⟩ := new_ends hthreads (Nat.le_of_eq hlen) hend
  exact ⟨c, new_of_span hspan hspanlen⟩

/-- Where no separator stands after 255 bytes, the loop ends at a colon or the end. -/
theorem stops_of_not_cut {src : String} (hcut : ¬CutAtSeparator src) {a : Algorithm}
    {c : Compliance} (h : new src = .ok (a, c)) :
    ∃ rest, src = a.src ++ rest ∧ len a.src ≤ maxU8 ∧ StopsAt isEnd (asBytes rest) := by
  obtain ⟨rest, rfl, hthreads, hlen, hcomponent, hfull⟩ := new_eq_ok h
  refine ⟨rest, rfl, hlen, ?_⟩
  rcases hfull with hfull | hstop
  · by_contra hstop
    obtain ⟨b, hhead, hb⟩ := separator_of_stop hcomponent hstop
    exact hcut ((cutAtSeparator_append hfull).mpr ⟨⟨c, hthreads⟩, b, hhead, hb⟩)
  · exact hstop

/-- No shorter text before a colon or the end begins a text without a colon. -/
theorem not_stops_early {a a' rest rest' : String} (h : a ++ rest = a' ++ rest')
    (hlt : len a' < len a) (ha : byte ':' ∉ asBytes a) : ¬StopsAt isEnd (asBytes rest') := by
  have hbytes : asBytes a ++ asBytes rest = asBytes a' ++ asBytes rest' := by
    rw [← asBytes_append, h, asBytes_append]
  rw [← length_asBytes, ← length_asBytes] at hlt
  rcases List.append_eq_append_iff.mp hbytes with ⟨v, hv, -⟩ | ⟨v, hv, hrest⟩
  · rw [hv, List.length_append] at hlt
    omega
  · cases v with
    | nil =>
      rw [hv, List.append_nil] at hlt
      omega
    | cons b v =>
      intro hstop
      have hcolon : b = byte ':' := eq_of_beq (hstop b (by rw [hrest]; rfl))
      rw [hv, hcolon] at ha
      exact ha (by simp)

/-- The parser truncates exactly the texts with a separator after 255 bytes. -/
theorem untruncated_iff (src : String) : Untruncated src ↔ ¬CutAtSeparator src := by
  constructor
  · intro h hcut
    obtain ⟨a, rest, rfl, hlen⟩ := hcut.exists_append
    obtain ⟨ha, b, hhead, hb⟩ := (cutAtSeparator_append hlen).mp hcut
    obtain ⟨c, hnew⟩ := new_of_cutAtSeparator hlen ha hhead hb
    obtain ⟨rest', hrest, hstop⟩ := h.stops _ c hnew
    obtain rfl : rest = rest' := (String.append_right_inj _).mp hrest
    exact (ascii_of_isSeparator b hb).2.1 (eq_of_beq (hstop b hhead))
  · intro hcut
    constructor
    · intro a c h
      obtain ⟨rest, hsrc, -, hstop⟩ := stops_of_not_cut hcut h
      exact ⟨rest, hsrc, hstop⟩
    · rintro a rest rfl ⟨c, hthreads⟩ - hlong ⟨⟨a', c'⟩, h⟩
      obtain ⟨rest', hsrc, hlen, hstop⟩ := stops_of_not_cut hcut h
      have hcolon : byte ':' ∉ asBytes a := fun hmem => (hthreads.ascii _ hmem).2 rfl
      exact not_stops_early hsrc (Nat.lt_of_le_of_lt hlen hlong) hcolon hstop

/-- As many letters as a u8 can count. -/
theorem exists_long : ∃ a, asBytes a = List.replicate maxU8 (byte 'a') := by
  apply exists_of_ascii
  intro b hb
  rw [List.eq_of_mem_replicate hb]
  decide

theorem long_accepted : List.replicate maxU8 (byte 'a') ∈ accepted := by
  refine ⟨.universal, threads_component ⟨byte 'a', List.replicate 254 (byte 'a'), rfl, rfl, ?_⟩⟩
  intro b hb
  rw [List.eq_of_mem_replicate hb]
  rfl

/-- After 255 letters and a separator the wrong byte is not looked at. -/
theorem untruncated_fails :
    ∃ a c, asBytes a = List.replicate 255 (byte 'a') ∧ new (a ++ "+!") = .ok (⟨a⟩, c) ∧
      ¬Untruncated (a ++ "+!") := by
  obtain ⟨a, ha⟩ := exists_long
  have hlen : len a = maxU8 := by rw [← length_asBytes, ha, List.length_replicate]
  have hmem : asBytes a ∈ accepted := ha ▸ long_accepted
  have hhead : (asBytes "+!").head? = some (byte '+') := rfl
  obtain ⟨c, hnew⟩ := new_of_cutAtSeparator hlen hmem hhead rfl
  refine ⟨a, c, ha, hnew, fun h => ?_⟩
  obtain ⟨rest, hrest, hstop⟩ := h.stops _ _ hnew
  obtain rfl : "+!" = rest := (String.append_right_inj _).mp hrest
  exact absurd (hstop (byte '+') hhead) (by decide)

end Algorithm

end ContainerImageDistRef
