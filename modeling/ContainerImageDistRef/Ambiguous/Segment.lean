import ContainerImageDistRef.Ambiguous.Shape
import ContainerImageDistRef.Library.ViablePrefix

/-!
# What the segment scan recognises

The loop over the bytes is a run of the automaton that also counts the bytes
and remembers the first one that decided between the readings. A successful
scan spans a domain name or a path component, or a bracketed literal, up to a
stop byte; and every such text that a u8 can count is scanned to its end. A
byte that the scan calls invalid is the first that no segment goes on with.
-/

namespace ContainerImageDistRef

open ByteString Grammar SeparatedList ViablePrefix

namespace HostOrPath

/-- The bytes that rule out one of the two readings. -/
def isDeciding (c : UInt8) : Bool := isUpper c || c == byte '_'

/-- The scan state after the bytes `u`. -/
structure Reads (f : Flavor) (u : List UInt8) (s : State) : Prop where
  len : s.len = u.length
  le : u.length ≤ maxU8
  run : ∃ a, Shape.run ⟨f, .item⟩ u = .ok a ∧ s.scan = a.encode
  decider : s.decidingChar = u.findIdx? isDeciding

/-- The packed update is a step of the automaton. -/
theorem update_eq {s : State} {a : Shape} (h : s.scan = a.encode) (c : UInt8) :
    s.update c = (a.step c >>= fun b => Outcome.ok { s with
        scan := b.encode
        decidingChar := if isDeciding c then s.decidingChar.or (some s.len)
          else s.decidingChar }).mapErr fun kind => (⟨s.len, kind⟩ : Error) := by
  have hclass : ∀ c, (isLowerAlnum c = true → isDeciding c = false) ∧
      (isUpper c = true → isDeciding c = true) := forall_byte (by decide)
  have hmarks : isDeciding (byte '_') = true ∧ isDeciding (byte '.') = false ∧
      isDeciding (byte '-') = false := by decide
  rw [State.update, Shape.step]
  congr 1
  by_cases hl : isLowerAlnum c = true
  · have hl' : (isLower c || isDigit c) = true := hl
    simp [hl, hl', State.setScan, h, Shape.encode_reset, (hclass c).1 hl]
  have hl' : ¬(isLower c || isDigit c) = true := hl
  rw [if_neg hl, if_neg hl']
  by_cases hu : isUpper c = true
  · rw [if_pos hu, if_pos hu, h, Shape.encode_setUpper, (hclass c).2 hu]
    cases a.setUpper <;> rfl
  rw [if_neg hu, if_neg hu]
  by_cases hc : c = byte '_'
  · subst hc
    rw [if_pos rfl, if_pos rfl, h, Shape.encode_addUnderscore, hmarks.1]
    cases a.addUnderscore <;> rfl
  rw [if_neg hc, if_neg hc]
  by_cases hd : c = byte '.'
  · subst hd
    rw [if_pos rfl, if_pos rfl, h, Shape.encode_setDot, hmarks.2.1]
    cases a.setDot <;> rfl
  rw [if_neg hd, if_neg hd]
  by_cases hm : c = byte '-'
  · subst hm
    rw [if_pos rfl, if_pos rfl, h, Shape.encode_setDash, hmarks.2.2]
    cases a.setDash <;> rfl
  rw [if_neg hm, if_neg hm]
  rfl

theorem reads_init (f : Flavor) (kind : Kind) (h : Scan.ofKind kind = Shape.encode ⟨f, .item⟩) :
    Reads f [] { len := 0, scan := Scan.ofKind kind, decidingChar := none } :=
  ⟨rfl, Nat.zero_le _, ⟨_, rfl, h⟩, rfl⟩

/-- One turn of the loop reads one byte, or fails where it stands. -/
theorem Reads.turn_sat {f : Flavor} {u : List UInt8} {s : State} (h : Reads f u s)
    (c : UInt8) :
    (s.update c >>= State.advance).Sat (Reads f (u ++ [c])) fun e => e.index = u.length ∧
      (e.kind = .hostOrPathTooLong ∨ ∀ b, Shape.run ⟨f, .item⟩ (u ++ [c]) ≠ .ok b) := by
  obtain ⟨a, ha, hscan⟩ := h.run
  rw [update_eq hscan]
  cases hstep : a.step c with
  | err kind =>
    refine ⟨h.len, Or.inr fun b hb => ?_⟩
    rw [Shape.run_concat, ha, Outcome.ok_bind, hstep] at hb
    cases hb
  | panic p =>
    rcases a with ⟨g, t⟩
    simp only [Shape.step, Shape.setUpper, Shape.addUnderscore, Shape.setDot,
      Shape.setDash] at hstep
    repeat' split at hstep
    all_goals cases hstep
  | ok b =>
    refine Outcome.Sat.bind (P := fun len => s.len + 1 ≤ maxU8 ∧ s.len + 1 = len)
      (Outcome.sat_okOr (fun len hlen => checkedAddU8_eq_some.mp hlen)
        fun _ => ⟨h.len, Or.inl rfl⟩) ?_
    rintro len ⟨hle, rfl⟩
    refine ⟨by simp [h.len], by simpa [← h.len] using hle, ⟨b, ?_, rfl⟩, ?_⟩
    · rw [Shape.run_concat, ha, Outcome.ok_bind, hstep]
    · rw [List.findIdx?_append, ← h.decider, ← h.len]
      by_cases hd : isDeciding c = true <;> simp [hd]

/-- A byte the automaton accepts is read while a u8 can count it. -/
theorem Reads.turn_ok {f : Flavor} {u : List UInt8} {s : State} {b : Shape} {c : UInt8}
    (h : Reads f u s) (hb : Shape.run ⟨f, .item⟩ (u ++ [c]) = .ok b) (hlen : u.length < maxU8) :
    ∃ t, (s.update c >>= State.advance) = .ok t ∧ Reads f (u ++ [c]) t := by
  obtain ⟨a, ha, hscan⟩ := h.run
  rw [Shape.run_concat, ha, Outcome.ok_bind] at hb
  have hadd : checkedAddU8 s.len 1 = some (s.len + 1) :=
    checkedAddU8_eq_some.mpr ⟨by rw [h.len]; exact hlen, rfl⟩
  have hsat := h.turn_sat c
  rw [update_eq hscan, hb] at hsat ⊢
  simp only [Outcome.ok_bind, Outcome.mapErr_ok, State.advance, hadd, Outcome.okOr_some,
    Outcome.sat_ok] at hsat ⊢
  exact ⟨_, rfl, hsat⟩

theorem scanLoop_cons (s : State) {c : UInt8} (rest : List UInt8) (hc : isStop c = false) :
    scanLoop s (c :: rest) = (s.update c >>= State.advance) >>= fun t => scanLoop t rest := by
  rw [scanLoop, hc, bind_assoc]
  rfl

/-- The bytes a segment can contain. -/
theorem ascii_of_step {a b : Shape} {c : UInt8} (h : a.step c = .ok b) : c < 128 := by
  cases Shape.step_eq_ok.mp h with
  | lowerAlnum hc => exact ascii_of_isAlnum c (isAlnum_of_isLowerAlnum c hc)
  | upper hc hf => exact ascii_of_isAlnum c (by simp [isAlnum, hc])
  | underscore hf ht => decide
  | underscores hf ht => decide
  | dot ht => decide
  | dash ht => decide

theorem Reads.ascii {f : Flavor} {u : List UInt8} {s : State} (h : Reads f u s) :
    ∀ c ∈ u, c < 128 := by
  obtain ⟨a, ha, -⟩ := h.run
  clear h
  induction u using List.reverseRecOn generalizing a with
  | nil => simp
  | append_singleton u c ih =>
    rw [Shape.run_concat] at ha
    obtain ⟨b, hb, hstep⟩ := Outcome.bind_eq_ok.mp ha
    intro d hd
    rcases List.mem_append.mp hd with hd | hd
    · exact ih b hb d hd
    · exact List.mem_singleton.mp hd ▸ ascii_of_step hstep

/-- The automaton has no step at the byte `i`, which does not end the segment. -/
def Rejects (f : Flavor) (w : List UInt8) (i : Nat) : Prop :=
  ∃ u c rest, w = u ++ c :: rest ∧ i = u.length ∧ isStop c = false ∧
    (∃ a, Shape.run ⟨f, .item⟩ u = .ok a) ∧ ∀ b, Shape.run ⟨f, .item⟩ (u ++ [c]) ≠ .ok b

/-- The loop reads up to a stop byte or to the end. -/
theorem scanLoop_sat {src : String} {f : Flavor} (done : List UInt8) {todo : List UInt8}
    {s : State} (hsrc : asBytes src = done ++ todo) (h : Reads f done s) :
    (scanLoop s todo).Sat
      (fun t => ∃ u rest, asBytes src = u ++ rest ∧ StopsAt isStop rest ∧ Reads f u t)
      fun e => AsciiUpTo src e.index ∧ e.index ≤ maxU8 ∧
        (e.kind = .hostOrPathTooLong ∨ Rejects f (asBytes src) e.index) := by
  induction todo generalizing done s with
  | nil => exact ⟨done, [], hsrc, stopsAt_nil _, h⟩
  | cons c todo ih =>
    cases hc : isStop c with
    | true =>
      rw [scanLoop, hc]
      exact ⟨done, c :: todo, hsrc, stopsAt_cons.mpr hc, h⟩
    | false =>
      rw [scanLoop_cons s todo hc]
      refine Outcome.Sat.bind ((h.turn_sat c).mono (fun _ ht => ht) fun e he => ?_)
        fun t ht => ih _ (by simpa using hsrc) ht
      obtain ⟨hindex, hkind⟩ := he
      rw [hindex]
      obtain ⟨a, ha, -⟩ := h.run
      exact ⟨asciiUpTo_of_bytes hsrc h.ascii, h.le,
        hkind.imp_right fun hb => ⟨done, c, todo, hsrc, rfl, hc, ⟨a, ha⟩, hb⟩⟩

theorem not_isStop_of_step {a b : Shape} {c : UInt8} (h : a.step c = .ok b) :
    isStop c = false := by
  have hclass : ∀ c, (isLowerAlnum c = true → isStop c = false) ∧
      (isUpper c = true → isStop c = false) := forall_byte (by decide)
  cases Shape.step_eq_ok.mp h with
  | lowerAlnum hc => exact (hclass c).1 hc
  | upper hc hf => exact (hclass c).2 hc
  | underscore hf ht => decide
  | underscores hf ht => decide
  | dot ht => decide
  | dash ht => decide

/-- The loop reads every text the automaton accepts. -/
theorem scanLoop_ok {f : Flavor} (done : List UInt8) {u rest : List UInt8} {s : State} {b : Shape}
    (h : Reads f done s) (hb : Shape.run ⟨f, .item⟩ (done ++ u) = .ok b)
    (hlen : (done ++ u).length ≤ maxU8) (hrest : StopsAt isStop rest) :
    ∃ t, scanLoop s (u ++ rest) = .ok t ∧ Reads f (done ++ u) t := by
  induction u generalizing done s with
  | nil =>
    rw [List.append_nil, List.nil_append]
    refine ⟨s, ?_, h⟩
    cases rest with
    | nil => rfl
    | cons c rest => rw [scanLoop, if_pos (stopsAt_cons.mp hrest)]
  | cons c u ih =>
    have happ : done ++ c :: u = done ++ [c] ++ u := by simp
    rw [happ] at hb hlen ⊢
    have hb' := hb
    rw [Shape.run_append] at hb'
    obtain ⟨a, ha, -⟩ := Outcome.bind_eq_ok.mp hb'
    have hlt : done.length < maxU8 := by
      simp only [List.length_append, List.length_singleton] at hlen
      omega
    obtain ⟨t, ht, hreads⟩ := h.turn_ok ha hlt
    rw [Shape.run_concat] at ha
    obtain ⟨d, -, hstep⟩ := Outcome.bind_eq_ok.mp ha
    rw [List.cons_append, scanLoop_cons s _ (not_isStop_of_step hstep), ht, Outcome.ok_bind]
    exact ih _ hreads hb hlen

/-- The reading a whole segment leaves. -/
def flavorOf (f : Flavor) (u : List UInt8) : Flavor :=
  match f with
  | .neutral =>
    if byte '_' ∈ u then .path
    else if ∃ c ∈ u, isUpper c = true then .host
    else .neutral
  | f => f

/-- The texts of a segment whose reading is settled to `f` in advance. -/
def Segment (f : Flavor) (u : List UInt8) : Prop :=
  f ≠ .host ∧ u ∈ pathComponent ∨ f ≠ .path ∧ u ∈ domainName

theorem Segment.head {f : Flavor} {u : List UInt8} (h : Segment f u) :
    ∃ c, u.head? = some c ∧ isAlnum c = true := by
  rcases h with ⟨-, h⟩ | ⟨-, h⟩
  · obtain ⟨c, hc, hl⟩ := head_of_mem_pathComponent h
    exact ⟨c, hc, isAlnum_of_isLowerAlnum c hl⟩
  · exact head_of_mem_domainName h

theorem Segment.run {f : Flavor} {u : List UInt8} (h : Segment f u) :
    ∃ g, Shape.run ⟨f, .item⟩ u = .ok ⟨g, .item⟩ := by
  rcases h with ⟨hf, h⟩ | ⟨hf, h⟩
  · obtain ⟨g, -, hrun⟩ := Shape.run_pathComponent hf h
    exact ⟨g, hrun⟩
  · obtain ⟨g, -, hrun⟩ := Shape.run_domainName hf h
    exact ⟨g, hrun⟩

/-- What the automaton reads completely is a path component unless the flavor rules
that out, and a domain name unless the flavor rules that out. -/
theorem segment_of_run {f g : Flavor} {u : List UInt8}
    (h : Shape.run ⟨f, .item⟩ u = .ok ⟨g, .item⟩) (hne : u ≠ [])
    (hc : ∀ c, u.head? = some c → ¬(c = byte '.' ∨ c = byte '-' ∨ c = byte '_')) :
    (g ≠ .host → u ∈ pathComponent) ∧ (g ≠ .path → u ∈ domainName) ∧ g = flavorOf f u := by
  have hd := Shape.describes_of_run h hne hc
  refine ⟨hd.path, hd.host, ?_⟩
  cases f with
  | host => exact hd.sticky (by simp)
  | path => exact hd.sticky (by simp)
  | neutral =>
    obtain ⟨hpath, hhost⟩ := Shape.flavor_of_run h
    simp only [flavorOf, ← hpath, ← hhost]
    cases g <;> rfl

theorem Segment.of_run {f g : Flavor} {u : List UInt8}
    (h : Shape.run ⟨f, .item⟩ u = .ok ⟨g, .item⟩) (hne : u ≠ [])
    (hc : ∀ c, u.head? = some c → ¬(c = byte '.' ∨ c = byte '-' ∨ c = byte '_')) :
    Segment f u := by
  obtain ⟨hpath, hhost, hg⟩ := segment_of_run h hne hc
  by_cases hgh : g = .host
  · refine Or.inr ⟨?_, hhost (by simp [hgh])⟩
    rintro rfl
    cases hgh.symm.trans hg
  · refine Or.inl ⟨?_, hpath hgh⟩
    rintro rfl
    exact hgh hg

/-- The scan finds no segment that goes on with the byte `i`, where the segment has not ended. -/
structure StuckAt (f : Flavor) (w : List UInt8) (i : Nat) : Prop where
  offends : Offends {u | Segment f u} w i
  inside : ∀ c, w[i]? = some c → isStop c = false

/-- What the automaton has read begins a segment, and what it has no step for does not. -/
theorem Rejects.stuckAt {f : Flavor} {w : List UInt8} {i : Nat} (h : Rejects f w i)
    (hc : ∀ c, w.head? = some c → ¬(c = byte '.' ∨ c = byte '-' ∨ c = byte '_')) :
    StuckAt f w i := by
  obtain ⟨u, c, rest, rfl, rfl, hstop, ⟨a, ha⟩, hstuck⟩ := h
  constructor
  · apply Offends.of_stuck
    · have hlower : isLowerAlnum (byte 'a') = true := by decide
      refine ⟨[byte 'a'], Segment.of_run (g := a.flavor) ?_ (by simp) fun d hd => ?_⟩
      · rw [Shape.run_concat, ha, Outcome.ok_bind, Shape.step_eq_ok.mpr (.lowerAlnum hlower)]
      · cases u with
        | nil =>
          cases hd
          decide
        | cons e u => exact hc d hd
    · rintro ⟨v, hv⟩
      obtain ⟨g, hg⟩ := Segment.run hv
      rw [Shape.run_append] at hg
      obtain ⟨b, hb, -⟩ := Outcome.bind_eq_ok.mp hg
      exact hstuck b hb
  · intro d hd
    rw [List.getElem?_append_right (Nat.le_refl _), Nat.sub_self] at hd
    cases hd
    exact hstop

/-- A segment begins with a letter or a digit. -/
theorem stuckAt_first {f : Flavor} {w : List UInt8} {c : UInt8} (h : w.head? = some c)
    (hc : isAlnum c = false) (hstop : isStop c = false) : StuckAt f w 0 := by
  obtain ⟨rest, rfl⟩ := List.head?_eq_some_iff.mp h
  constructor
  · apply Offends.of_stuck (u := [])
    · refine ⟨[byte 'a'], ?_⟩
      by_cases hf : f = .host
      · exact Or.inr ⟨by simp [hf], symbol_mem_domainName (by decide)⟩
      · exact Or.inl ⟨hf, symbol_mem_pathComponent (by decide)⟩
    · rintro ⟨v, hv⟩
      obtain ⟨d, hd, halnum⟩ := Segment.head hv
      cases hd
      cases hc.symm.trans halnum
  · rintro d hd
    cases hd
    exact hstop

theorem not_upper_of_pathComponent {u : List UInt8} (h : u ∈ pathComponent) :
    ¬∃ c ∈ u, isUpper c = true := by
  have hclass : ∀ c, isComponentByte c = true → isUpper c = false := forall_byte (by decide)
  rintro ⟨c, hc, hupper⟩
  cases (hclass c (isComponentByte_of_mem h c hc)).symm.trans hupper

/-- No stop byte is inside a segment. -/
theorem not_isStop_of_mem {u : List UInt8} (h : u ∈ domainName ∨ u ∈ pathComponent) :
    ∀ c ∈ u, isStop c = false := by
  have hdomain : ∀ c, isDomainByte c = true → isStop c = false := forall_byte (by decide)
  have hcomponent : ∀ c, isComponentByte c = true → isStop c = false := forall_byte (by decide)
  intro c hc
  rcases h with h | h
  · exact hdomain c (isDomainByte_of_mem h c hc)
  · exact hcomponent c (isComponentByte_of_mem h c hc)

theorem flavorOf_ne_host {f : Flavor} {u : List UInt8} (hf : f ≠ .host)
    (h : u ∈ pathComponent) : flavorOf f u ≠ .host := by
  have hu := not_upper_of_pathComponent h
  cases f with
  | host => exact absurd rfl hf
  | path => simp [flavorOf]
  | neutral =>
    rw [flavorOf, if_neg hu]
    split <;> simp

theorem not_underscore_of_domainName {u : List UInt8} (h : u ∈ domainName) :
    byte '_' ∉ u := by
  intro hu
  exact absurd (isDomainByte_of_mem h _ hu) (by decide)

theorem flavorOf_ne_path {f : Flavor} {u : List UInt8} (hf : f ≠ .path)
    (h : u ∈ domainName) : flavorOf f u ≠ .path := by
  cases f with
  | host => simp [flavorOf]
  | path => exact absurd rfl hf
  | neutral =>
    rw [flavorOf, if_neg (not_underscore_of_domainName h)]
    split <;> simp

def Kind.flavor : Kind → Flavor
  | .host => .host
  | .path => .path
  | .ipV6 | .hostOrPath | .any => .neutral

theorem ofKind_eq {kind : Kind} (h : kind ≠ .ipV6) :
    Scan.ofKind kind = Shape.encode ⟨kind.flavor, .item⟩ := by
  cases kind <;> first | rfl | exact absurd rfl h

end HostOrPath

namespace HostOrPathSpan

open HostOrPath

/-- The span of a segment. -/
structure Spans (f : Flavor) (u : String) (span : HostOrPathSpan) : Prop where
  path : flavorOf f (asBytes u) ≠ .host → asBytes u ∈ pathComponent
  host : flavorOf f (asBytes u) ≠ .path → asBytes u ∈ domainName
  length : span.length.val = len u
  kind : span.kind = (flavorOf f (asBytes u)).kind
  decider : span.decider = ((asBytes u).findIdx? isDeciding).getD 0

theorem Spans.kind_eq_path {u : String} {span : HostOrPathSpan} (h : Spans .neutral u span) :
    span.kind = .path ↔ byte '_' ∈ asBytes u := by
  rw [h.kind, flavorOf]
  by_cases hu : byte '_' ∈ asBytes u
  · simp [hu, Flavor.kind]
  · rw [if_neg hu]
    split <;> simp [Flavor.kind, hu]

theorem Spans.ascii {f : Flavor} {u : String} {span : HostOrPathSpan} (h : Spans f u span) :
    ∀ c ∈ asBytes u, c < 128 := by
  by_cases hf : flavorOf f (asBytes u) = .host
  · exact fun c hc => ascii_of_isDomainByte c
      (isDomainByte_of_mem (h.host (by simp [hf])) c hc)
  · exact fun c hc => ascii_of_isComponentByte c (isComponentByte_of_mem (h.path hf) c hc)

theorem Spans.decider_le {f : Flavor} {u : String} {span : HostOrPathSpan}
    (h : Spans f u span) : span.decider ≤ len u := by
  rw [h.decider]
  cases hi : (asBytes u).findIdx? isDeciding with
  | none => exact Nat.zero_le _
  | some i =>
    obtain ⟨hlt, -⟩ := List.findIdx?_eq_some_iff_getElem.mp hi
    exact Nat.le_of_lt hlt

/-- Without uppercase letters the first underscore decides. -/
theorem Spans.decider_underscore {f : Flavor} {u : String} {span : HostOrPathSpan}
    (h : Spans f u span) (hupper : ¬∃ c ∈ asBytes u, isUpper c = true) {i : Nat}
    (hi : (asBytes u).findIdx? (· == byte '_') = some i) : span.decider = i := by
  have hcongr : (asBytes u).findIdx? isDeciding = (asBytes u).findIdx? (· == byte '_') := by
    apply findIdx?_congr
    intro c hc
    have hlower : isUpper c = false := Bool.eq_false_iff.mpr fun hc' => hupper ⟨c, hc, hc'⟩
    rw [isDeciding, hlower, Bool.false_or]
  rw [h.decider, hcongr, hi]
  rfl

/-- Without underscores the first uppercase letter decides. -/
theorem Spans.decider_upper {f : Flavor} {u : String} {span : HostOrPathSpan}
    (h : Spans f u span) (hunder : byte '_' ∉ asBytes u) {i : Nat}
    (hi : (asBytes u).findIdx? isUpper = some i) : span.decider = i := by
  have hcongr : (asBytes u).findIdx? isDeciding = (asBytes u).findIdx? isUpper := by
    apply findIdx?_congr
    intro c hc
    have hne : (c == byte '_') = false := beq_false_of_ne fun heq => hunder (heq ▸ hc)
    rw [isDeciding, hne, Bool.or_false]
  rw [h.decider, hcongr, hi]
  rfl

/-- The span of a bracketed literal. -/
structure SpansIpv6 (u : String) (span : HostOrPathSpan) : Prop where
  literal : Ipv6Literal u
  length : span.length.val = len u
  kind : span.kind = .ipV6
  decider : span.decider = 0

/-- The kinds of error that do not name a byte. -/
def Unplaced (kind : Err.Kind) : Prop :=
  kind = .hostOrPathMissing ∨ kind = .hostOrPathTooLong ∨ kind = .hostOrPathInvalidComponentEnd

/-- What an error of the scan says about its source. -/
structure ScanError (f : Flavor) (src : String) (e : Error) : Prop where
  ascii : AsciiUpTo src e.index
  le : e.index ≤ maxU8
  stuck : Unplaced e.kind ∨ StuckAt f (asBytes src) e.index

/-- The part of `new` after the loop. -/
def finish (src : String) (state : State) : Outcome Error HostOrPathSpan := do
  state.checkComponentEnd
  let _rest ← sliceFrom src state.len
  Outcome.assert (state.len ≤ len src)
  let length ← Outcome.okOr (ShortLength.new state.len) ⟨0, .hostOrPathMissing⟩
  let kind ← Kind.ofScan state.scan
  .ok ⟨length, kind, state.decidingChar.getD 0⟩

def init (kind : Kind) : State := { len := 0, scan := Scan.ofKind kind, decidingChar := none }

theorem new_eq {src : String} {kind : Kind} {c : UInt8} (h : (asBytes src).head? = some c)
    (hc : c ≠ byte '[') (hsep : ¬(c = byte '.' ∨ c = byte '-' ∨ c = byte '_')) :
    new src kind = scanLoop (init kind) (asBytes src) >>= finish src := by
  rw [new.eq_def, h]
  dsimp only
  rw [if_neg hc, if_neg hsep]
  rfl

/-- What follows a loop that has read the bytes of `u`. -/
theorem finish_sat {u : String} (rest : String) {f : Flavor} {s : State}
    (h : Reads f (asBytes u) s)
    (hc : ∀ c, (asBytes u).head? = some c → ¬(c = byte '.' ∨ c = byte '-' ∨ c = byte '_')) :
    (finish (u ++ rest) s).Sat (Spans f u) fun e => e.index ≤ len u ∧ Unplaced e.kind := by
  obtain ⟨⟨g, t⟩, ha, hscan⟩ := h.run
  have hlen : s.len = len u := h.len
  rw [finish, State.checkComponentEnd, hscan, Shape.encode_end, hlen]
  by_cases ht : t = .item
  · subst ht
    have hle : len u ≤ len (u ++ rest) := by
      rw [len_append]
      omega
    rw [if_pos (by rfl), Outcome.ok_bind, sliceFrom_append, Outcome.ok_bind,
      Outcome.assert_true hle, Outcome.ok_bind]
    refine Outcome.Sat.bind (P := fun length : ShortLength => len u = length.val)
      (Outcome.sat_okOr (fun length hl => Length.new_eq_some.mp hl)
        fun _ => ⟨Nat.zero_le _, Or.inl rfl⟩) fun length hl => ?_
    have hne : asBytes u ≠ [] := by
      intro hnil
      have := length.pos
      rw [← hl, ← length_asBytes, hnil] at this
      exact absurd this (by decide)
    obtain ⟨hpath, hhost, rfl⟩ := segment_of_run ha hne hc
    rw [Shape.encode_kind]
    exact ⟨hpath, hhost, hl.symm, rfl, by rw [h.decider]⟩
  · rw [if_neg (by simpa using ht)]
    exact ⟨Nat.sub_le _ _, Or.inr (Or.inr rfl)⟩

theorem finish_ok {u : String} (rest : String) {f g : Flavor} {s : State}
    (h : Reads f (asBytes u) s) (hg : Shape.run ⟨f, .item⟩ (asBytes u) = .ok ⟨g, .item⟩)
    (hne : u ≠ "") : ∃ span, finish (u ++ rest) s = .ok span := by
  obtain ⟨a, ha, hscan⟩ := h.run
  obtain rfl : ⟨g, .item⟩ = a := by
    rw [hg] at ha
    exact Outcome.ok.inj ha
  have hlen : s.len = len u := h.len
  have hle : len u ≤ len (u ++ rest) := by
    rw [len_append]
    omega
  have hpos : 0 < len u := Nat.pos_of_ne_zero fun h0 => hne (len_eq_zero.mp h0)
  let length : ShortLength := ⟨len u, hpos, h.le⟩
  have hnew : ShortLength.new (len u) = some length := Length.new_eq_some.mpr rfl
  rw [finish, State.checkComponentEnd, hscan, Shape.encode_end, hlen, if_pos (by rfl),
    Outcome.ok_bind, sliceFrom_append, Outcome.ok_bind, Outcome.assert_true hle,
    Outcome.ok_bind, hnew, Outcome.okOr_some, Outcome.ok_bind, Shape.encode_kind]
  exact ⟨_, rfl⟩

/-- A scan that is not bracketed spans a segment. -/
theorem scan_sat {src : String} {kind : Kind} (hk : kind ≠ .ipV6) {c : UInt8}
    (h : (asBytes src).head? = some c) (hc : c ≠ byte '[') :
    (new src kind).Sat
      (fun span => ∃ u rest, src = u ++ rest ∧ StopsAt isStop (asBytes rest) ∧
        Spans kind.flavor u span)
      (ScanError kind.flavor src) := by
  by_cases hsep : c = byte '.' ∨ c = byte '-' ∨ c = byte '_'
  · rw [new.eq_def, h]
    dsimp only
    rw [if_neg hc, if_pos hsep]
    have hclass : isAlnum c = false ∧ isStop c = false := by
      rcases hsep with rfl | rfl | rfl <;> decide
    exact ⟨asciiUpTo_zero src, Nat.zero_le _, Or.inr (stuckAt_first h hclass.1 hclass.2)⟩
  rw [new_eq h hc hsep]
  have hinit : Reads kind.flavor [] (init kind) := reads_init _ _ (ofKind_eq hk)
  refine Outcome.Sat.bind ((scanLoop_sat [] rfl hinit).mono (fun _ ht => ht) fun e he => ?_)
    fun s hs => ?_
  · obtain ⟨hascii, hle, hkind⟩ := he
    refine ⟨hascii, hle, hkind.imp (fun hlong => Or.inr (Or.inl hlong)) fun hrejects => ?_⟩
    apply hrejects.stuckAt
    intro d hd
    cases h.symm.trans hd
    exact hsep
  obtain ⟨l, r, hsrc, hstop, hreads⟩ := hs
  obtain ⟨u, rest, rfl, rfl, rfl⟩ := exists_append_of_ascii hsrc hreads.ascii
  have hascii : AsciiUpTo (u ++ rest) (len u) :=
    asciiUpTo_of_bytes (asBytes_append u rest) hreads.ascii
  have hfirst : ∀ d, (asBytes u).head? = some d →
      ¬(d = byte '.' ∨ d = byte '-' ∨ d = byte '_') := by
    intro d hd
    rw [asBytes_append, List.head?_append, hd] at h
    cases h
    exact hsep
  exact (finish_sat rest hreads hfirst).mono
    (fun span hspan => ⟨u, rest, rfl, hstop, hspan⟩)
    fun e he => ⟨hascii.mono he.1, Nat.le_trans he.1 hreads.le, Or.inl he.2⟩

/-- Every segment a u8 can count is scanned to its end. -/
theorem new_segment {u : String} (kind : Kind) (rest : String) (hk : kind ≠ .ipV6)
    (h : Segment kind.flavor (asBytes u)) (hlen : len u ≤ maxU8)
    (hrest : StopsAt isStop (asBytes rest)) :
    ∃ span, new (u ++ rest) kind = .ok span ∧ Spans kind.flavor u span := by
  obtain ⟨c, hc, halnum⟩ := h.head
  have hclass : ∀ c, isAlnum c = true →
      c ≠ byte '[' ∧ ¬(c = byte '.' ∨ c = byte '-' ∨ c = byte '_') := forall_byte (by decide)
  have hhead : (asBytes (u ++ rest)).head? = some c := by
    rw [asBytes_append, List.head?_append, hc]
    rfl
  have hne : u ≠ "" := by
    rintro rfl
    cases hc
  obtain ⟨g, hg⟩ := h.run
  obtain ⟨s, hs, hreads⟩ := scanLoop_ok [] (reads_init _ _ (ofKind_eq hk)) hg hlen hrest
  obtain ⟨span, hspan⟩ := finish_ok rest hreads hg hne
  refine ⟨span, ?_, (finish_sat rest hreads fun d hd => ?_).of_ok hspan⟩
  · rw [new_eq hhead (hclass c halnum).1 (hclass c halnum).2, asBytes_append]
    rw [show scanLoop (init kind) (asBytes u ++ asBytes rest) = .ok s from hs]
    exact hspan
  · rw [hc] at hd
    cases hd
    exact (hclass c halnum).2

/-- The scan of a component that is known to be part of a path. -/
theorem new_path_sat (src : String) :
    (new src .path).Sat
      (fun span => ∃ u rest, src = u ++ rest ∧ StopsAt isStop (asBytes rest) ∧
        Spans .path u span)
      (ScanError .path src) := by
  cases h : (asBytes src).head? with
  | none =>
    rw [new.eq_def, h]
    exact ⟨asciiUpTo_zero src, Nat.zero_le _, Or.inl (Or.inl rfl)⟩
  | some c =>
    by_cases hc : c = byte '['
    · rw [new.eq_def, h]
      dsimp only
      rw [if_pos hc]
      subst hc
      exact ⟨asciiUpTo_zero src, Nat.zero_le _, Or.inr (stuckAt_first h (by decide) (by decide))⟩
    · exact scan_sat (by simp) h hc

/-- The scan of a first segment, which may be a bracketed literal. -/
theorem new_any_sat (src : String) :
    (new src .any).Sat
      (fun span => ∃ u rest, src = u ++ rest ∧
        (StopsAt isStop (asBytes rest) ∧ Spans .neutral u span ∨ SpansIpv6 u span))
      fun e => AsciiUpTo src e.index := by
  cases h : (asBytes src).head? with
  | none =>
    rw [new.eq_def, h]
    exact asciiUpTo_zero src
  | some c =>
    by_cases hc : c = byte '['
    · rw [new.eq_def, h]
      dsimp only
      rw [if_pos hc]
      apply Outcome.Sat.bind_eq (Ipv6Span.new_sat src)
      intro span hspan _
      obtain ⟨host, rest, rfl, hlen, hlit⟩ := Ipv6Span.new_literal hspan
      exact ⟨host, rest, rfl, Or.inr ⟨hlit, hlen.symm, rfl, rfl⟩⟩
    · refine (scan_sat (by simp) h hc).mono ?_ fun e he => he.ascii
      rintro span ⟨u, rest, hsrc, hstop, hspan⟩
      exact ⟨u, rest, hsrc, Or.inl ⟨hstop, hspan⟩⟩

theorem new_ipv6 {host : String} (h : Ipv6Literal host) (rest : String) :
    ∃ span, new (host ++ rest) .any = .ok span ∧ SpansIpv6 host span := by
  obtain ⟨ipv6, hspan, hlen⟩ := h.new_append rest
  obtain ⟨inner, hbytes, -⟩ := h.bytes
  refine ⟨⟨ipv6.length, .ipV6, 0⟩, ?_, h, hlen, rfl, rfl⟩
  have hhead : (asBytes (host ++ rest)).head? = some (byte '[') := by
    rw [asBytes_append, hbytes]
    rfl
  rw [new.eq_def, hhead]
  dsimp only
  rw [if_pos rfl, hspan]
  rfl

end HostOrPathSpan

end ContainerImageDistRef
