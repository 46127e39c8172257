import ContainerImageDistRef.Ambiguous.PortOrTagErrors
import ContainerImageDistRef.Name.Domain.Ipv6.Errors
import ContainerImageDistRef.Name.PathFailures
import ContainerImageDistRef.Parts

/-!
# Every error before the path is settled

The first segment is scanned, then the port or tag behind its colon, and the
byte behind both decides what they were. A text fails in one of the two scans,
or because the segment or the tag is not what the decision makes of it.
-/

namespace ContainerImageDistRef

open ByteString Grammar PortOrTag

namespace DomainOrRefSpan

open HostOrPath (Segment flavorOf not_underscore_of_domainName not_upper_of_pathComponent)

/-- The first segment `h` of a text: what stands before a stop byte, or a bracketed literal. -/
def Begins (h after : String) : Prop :=
  Ipv6Literal h ∨ Segment .neutral (asBytes h) ∧ ByteString.len h ≤ maxU8 ∧
    StopsAt HostOrPath.isStop (asBytes after)

section Segment

variable {h after : String} {left : HostOrPathSpan}

theorem Begins.exists_left (hb : Begins h after) :
    ∃ left, HostOrPathSpan.new (h ++ after) .any = .ok left ∧ HostSpan.Ambiguous h left := by
  rcases hb with hliteral | ⟨hsegment, hle, hstop⟩
  · obtain ⟨left, hleft, hspans⟩ := HostOrPathSpan.new_ipv6 hliteral after
    exact ⟨left, hleft, Or.inr hspans⟩
  · obtain ⟨left, hleft, hspans⟩ :=
      HostOrPathSpan.new_segment .any after (by simp) hsegment hle hstop
    exact ⟨left, hleft, Or.inl hspans⟩

theorem segment_of_spans (hl : left.Spans .neutral h) : Segment .neutral (asBytes h) := by
  by_cases hhost : flavorOf .neutral (asBytes h) = .host
  · exact Or.inr ⟨by simp, hl.host (by simp [hhost])⟩
  · exact Or.inl ⟨by simp, hl.path hhost⟩

theorem exists_begins {src : String} (hnew : HostOrPathSpan.new src .any = .ok left) :
    ∃ h after, src = h ++ after ∧ Begins h after ∧ HostSpan.Ambiguous h left := by
  obtain ⟨h, after, rfl, ⟨hstop, hl⟩ | hl⟩ := (HostOrPathSpan.new_any_sat src).of_ok hnew
  · have hle : ByteString.len h ≤ maxU8 := hl.length ▸ left.length.le
    exact ⟨h, after, rfl, Or.inr ⟨segment_of_spans hl, hle, hstop⟩, Or.inl hl⟩
  · exact ⟨h, after, rfl, Or.inl hl.literal, Or.inr hl⟩

theorem not_literal (hs : Segment .neutral (asBytes h)) : ¬Ipv6Literal h := by
  intro hh
  obtain ⟨c, hc, halnum⟩ := hs.head
  obtain ⟨inner, hbytes, -⟩ := hh.bytes
  rw [hbytes] at hc
  cases hc
  exact absurd halnum (by decide)

/-- Why a first segment is no path, and where. -/
inductive NotPath (h : String) : Error → Prop
  | literal (hh : Ipv6Literal h) : NotPath h ⟨0, .hostOrPathInvalidChar⟩
  | upper {i : Nat} (hh : Segment .neutral (asBytes h))
      (hi : (asBytes h).findIdx? isUpper = some i) : NotPath h ⟨i, .pathInvalidChar⟩

/-- An uppercase letter makes a segment a host. -/
theorem flavorOf_eq_host (hs : Segment .neutral (asBytes h)) :
    flavorOf .neutral (asBytes h) = .host ↔ ∃ c ∈ asBytes h, isUpper c = true := by
  have hclass : ∀ c, isComponentByte c = true → isUpper c = false := forall_byte (by decide)
  have hdomain : ∀ c, isDomainByte c = true → c ≠ byte '_' := forall_byte (by decide)
  constructor
  · intro hf
    by_contra hnone
    rw [flavorOf] at hf
    by_cases hunder : byte '_' ∈ asBytes h
    · rw [if_pos hunder] at hf
      cases hf
    · rw [if_neg hunder, if_neg hnone] at hf
      cases hf
  · rintro ⟨c, hc, hupper⟩
    have hdom : asBytes h ∈ domainName := by
      rcases hs with ⟨-, hx⟩ | ⟨-, hx⟩
      · cases (hclass c (isComponentByte_of_mem hx c hc)).symm.trans hupper
      · exact hx
    have hunder : byte '_' ∉ asBytes h := fun hu =>
      hdomain _ (isDomainByte_of_mem hdom _ hu) rfl
    rw [flavorOf, if_neg hunder, if_pos ⟨c, hc, hupper⟩]

/-- A first segment is a path, or there is a reason why not. -/
theorem pathTryFrom_eq_err {e : Error} (hl : HostSpan.Ambiguous h left) :
    PathSpan.tryFrom left = .err e ↔ NotPath h e := by
  rcases hl with hl | hl
  · have hs := segment_of_spans hl
    by_cases hf : flavorOf .neutral (asBytes h) = .host
    · have hkind : left.kind = .host := by
        rw [hl.kind, hf]
        rfl
      obtain ⟨c, hc, hupper⟩ := (flavorOf_eq_host hs).mp hf
      obtain ⟨i, hi⟩ : ∃ i, (asBytes h).findIdx? isUpper = some i :=
        ⟨_, List.findIdx?_eq_some_of_exists ⟨c, hc, hupper⟩⟩
      have hunder := not_underscore_of_domainName (hl.host (by simp [hf]))
      have htry : PathSpan.tryFrom left = .err ⟨i, .pathInvalidChar⟩ := by
        rw [PathSpan.tryFrom, HostOrPathSpan.narrow.eq_def, hkind, hl.decider_upper hunder hi]
        rfl
      rw [htry]
      constructor
      · intro he
        cases he
        exact .upper hs hi
      · intro hn
        cases hn with
        | literal hh => exact absurd hh (not_literal hs)
        | upper hh hj =>
          cases hi.symm.trans hj
          rfl
    · rw [PathSpan.tryFrom_ok hl hf]
      constructor
      · intro he
        cases he
      · intro hn
        cases hn with
        | literal hh => exact absurd hh (not_literal hs)
        | upper hh hi =>
          refine absurd ((flavorOf_eq_host hs).mpr ?_) hf
          obtain ⟨hlt, hupper, -⟩ := List.findIdx?_eq_some_iff_getElem.mp hi
          exact ⟨_, List.getElem_mem hlt, hupper⟩
  · have htry : PathSpan.tryFrom left = .err ⟨0, .hostOrPathInvalidChar⟩ := by
      rw [PathSpan.tryFrom, HostOrPathSpan.narrow.eq_def, hl.kind]
      rfl
    rw [htry]
    constructor
    · intro he
      cases he
      exact .literal hl.literal
    · intro hn
      cases hn with
      | literal hh => rfl
      | upper hh hi => exact absurd hl.literal (not_literal hh)

end Segment

/-- The errors before the path is settled. -/
inductive Fails (src : String) : Error → Prop
  | bracketed {e : Error} (hhead : (asBytes src).head? = some (byte '['))
      (he : Ipv6Span.Fails src e) : Fails src e
  | segment {e : Error} (hhead : (asBytes src).head? ≠ some (byte '['))
      (he : HostOrPathSpan.Fails .neutral src e) : Fails src e
  | foreign {h rest : String} {c : UInt8} (hsrc : src = h ++ rest) (hh : Ipv6Literal h)
      (hc : (asBytes rest).head? = some c) (hstop : HostOrPath.isStop c = false) :
      Fails src ⟨ByteString.len h, .portOrTagInvalidChar⟩
  | colon {h after : String} {e : Error} (hsrc : src = h ++ (":" ++ after))
      (hh : Begins h (":" ++ after)) (he : PortOrTagSpan.Fails .port after e) :
      Fails src ⟨ByteString.len h + 1 + e.index, e.kind⟩
  | notPath {h rest : String} {t : Option String} {e : Error}
      (hsrc : src = h ++ (tagText t ++ rest)) (hh : Begins h (tagText t ++ rest))
      (ht : ∀ x, t = some x → Readable .port (asBytes x))
      (hend : StopsAt TagSpan.isEnd (asBytes rest)) (he : NotPath h e) : Fails src e
  | tagLong {x t rest : String} (hsrc : src = x ++ (":" ++ t ++ rest))
      (hx : asBytes x ∈ pathComponent) (hlen : ByteString.len x ≤ maxU8)
      (ht : Readable .port (asBytes t)) (hlong : Tag.MAX_LEN < ByteString.len t)
      (hend : StopsAt TagSpan.isEnd (asBytes rest)) :
      Fails src ⟨ByteString.len x + 1 + Tag.MAX_LEN, .tagTooLong⟩
  | notHost {x q rest : String} {i : Nat} (hsrc : src = x ++ (":" ++ q ++ ("/" ++ rest)))
      (hx : asBytes x ∈ pathComponent) (hlen : ByteString.len x ≤ maxU8)
      (hi : (asBytes x).findIdx? (· == byte '_') = some i) (hq : asBytes q ∈ portNumber)
      (hqlen : ByteString.len q ≤ maxU8) : Fails src ⟨i, .hostInvalidChar⟩
  | portLong {kind : Host.Kind} {h q rest : String} (hsrc : src = h ++ (":" ++ q ++ ("/" ++ rest)))
      (hh : HostSpan.HostText kind h) (hlen : ByteString.len h ≤ maxU8)
      (hq : asBytes q ∈ portNumber) (hqlen : ByteString.len q ≤ maxU8)
      (hover : maxU8 < ByteString.len h + ByteString.len q) : Fails src ⟨maxU8, .portTooLong⟩
  | path {x rest : String} {e : Error} (hsrc : src = x ++ ("/" ++ rest))
      (hx : asBytes x ∈ pathComponent) (hunder : byte '_' ∈ asBytes x)
      (hlen : ByteString.len x ≤ maxU8) (he : PathSpan.Fails src e) : Fails src e

section Equations

variable {h t rest : String} {left : HostOrPathSpan} {q : PortOrTagSpan} {e : Error}

theorem new_head {after : String} (hleft : HostOrPathSpan.new (h ++ after) .any = .ok left) :
    new (h ++ after) = lookahead (h ++ after) left >>= fun found =>
      settle (h ++ after) left found.1 found.2 := by
  rw [new, hleft, Outcome.ok_bind]

/-- At the end and before a digest. -/
theorem new_end (hleft : HostOrPathSpan.new (h ++ rest) .any = .ok left)
    (hl : HostSpan.Ambiguous h left) (hend : StopsAt TagSpan.isEnd (asBytes rest)) :
    new (h ++ rest) = PathSpan.tryFrom left >>= fun path => .ok (.taggedRef path none) := by
  have hlen := length_of_ambiguous hl
  have hle : ByteString.len h ≤ maxU16 := Nat.le_trans (hlen ▸ left.length.le) (by decide)
  have hlook := lookahead_nothing rest hlen fun c hc => Or.inr (eq_of_beq (hend c hc))
  rw [new_head hleft, hlook, Outcome.ok_bind]
  exact settle_end (saturatingAddU16_of_le hle) hend

/-- Before a slash. -/
theorem new_slash (hleft : HostOrPathSpan.new (h ++ ("/" ++ rest)) .any = .ok left)
    (hl : HostSpan.Ambiguous h left) :
    new (h ++ ("/" ++ rest)) =
      if left.kind = .path then
        PathSpan.tryFrom left >>= fun path => path.extend ("/" ++ rest) >>= fun path =>
          .ok (.taggedRef path none)
      else DomainSpan.fromAmbiguous left none >>= fun d => .ok (.domain d) := by
  have hhead := head?_sep "/" rfl rest
  have hlen := length_of_ambiguous hl
  have hle : ByteString.len h ≤ maxU16 := Nat.le_trans (hlen ▸ left.length.le) (by decide)
  have hlook := lookahead_nothing ("/" ++ rest) hlen fun c hc => by
    cases hhead.symm.trans hc
    exact Or.inl rfl
  rw [new_head hleft, hlook, Outcome.ok_bind]
  exact settle_slash hle (kind_ne_any hl)

theorem new_colon (hleft : HostOrPathSpan.new (h ++ (":" ++ rest)) .any = .ok left)
    (hl : HostSpan.Ambiguous h left) :
    new (h ++ (":" ++ rest)) =
      (PortOrTagSpan.new rest .port).mapErr (fun e =>
        (⟨saturatingAddU16 (ByteString.len h + 1) e.index, e.kind⟩ : Error)) >>= fun right =>
          settle (h ++ (":" ++ rest)) left (ByteString.len h + 1) (some right) := by
  rw [new_head hleft, lookahead_colon rest (length_of_ambiguous hl)]
  cases PortOrTagSpan.new rest .port <;> rfl

/-- Behind a tag comes the end or a digest. -/
theorem new_tag (hleft : HostOrPathSpan.new (h ++ (":" ++ (t ++ rest))) .any = .ok left)
    (hl : HostSpan.Ambiguous h left) (hq : PortOrTagSpan.new (t ++ rest) .port = .ok q)
    (hqlen : q.length.val = ByteString.len t) (hend : StopsAt TagSpan.isEnd (asBytes rest)) :
    new (h ++ (":" ++ (t ++ rest))) = PathSpan.tryFrom left >>= fun path =>
      tagOf path (some q) >>= fun tag => .ok (.taggedRef path tag) := by
  have hle : ByteString.len h ≤ maxU8 := length_of_ambiguous hl ▸ left.length.le
  have hcat : h ++ (":" ++ (t ++ rest)) = (h ++ ":" ++ t) ++ rest := by
    simp only [String.append_assoc]
  rw [new_colon hleft hl, hq, Outcome.mapErr_ok, Outcome.ok_bind, hcat]
  exact settle_end (index_right hle hqlen) hend

/-- Behind a port comes a slash. -/
theorem new_port (hleft : HostOrPathSpan.new (h ++ (":" ++ (t ++ ("/" ++ rest)))) .any = .ok left)
    (hl : HostSpan.Ambiguous h left) (hq : PortOrTagSpan.new (t ++ ("/" ++ rest)) .port = .ok q)
    (hqlen : q.length.val = ByteString.len t) :
    new (h ++ (":" ++ (t ++ ("/" ++ rest)))) =
      DomainSpan.fromAmbiguous left (some q) >>= fun d => .ok (.domain d) := by
  have hle : ByteString.len h ≤ maxU8 := length_of_ambiguous hl ▸ left.length.le
  have hcat : h ++ (":" ++ (t ++ ("/" ++ rest))) = (h ++ ":" ++ t) ++ ("/" ++ rest) := by
    simp only [String.append_assoc]
  rw [new_colon hleft hl, hq, Outcome.mapErr_ok, Outcome.ok_bind, hcat]
  exact settle_port (index_right hle hqlen)

/-- An error behind the colon is moved there. -/
theorem new_colon_err (hleft : HostOrPathSpan.new (h ++ (":" ++ rest)) .any = .ok left)
    (hl : HostSpan.Ambiguous h left) (he : PortOrTagSpan.Fails .port rest e) :
    new (h ++ (":" ++ rest)) = .err ⟨ByteString.len h + 1 + e.index, e.kind⟩ := by
  have hle : ByteString.len h ≤ maxU8 := length_of_ambiguous hl ▸ left.length.le
  have hindex : e.index ≤ maxU8 := ((PortOrTagSpan.new_sat rest .port).of_err he.new_eq).2
  have hsum : saturatingAddU16 (ByteString.len h + 1) e.index = ByteString.len h + 1 + e.index := by
    have hmax : maxU8 + 1 + maxU8 ≤ maxU16 := by decide
    exact saturatingAddU16_of_le (by omega)
  rw [new_colon hleft hl, he.new_eq, Outcome.mapErr_err, Outcome.err_bind, hsum]

/-- Behind a literal comes no other byte. -/
theorem new_foreign {c : UInt8} (hleft : HostOrPathSpan.new (h ++ rest) .any = .ok left)
    (hl : HostSpan.Ambiguous h left) (hc : (asBytes rest).head? = some c)
    (hstop : HostOrPath.isStop c = false) :
    new (h ++ rest) = .err ⟨ByteString.len h, .portOrTagInvalidChar⟩ := by
  have hlen := length_of_ambiguous hl
  have hclass : ∀ c, HostOrPath.isStop c = false →
      ¬(c = byte '/' ∨ c = byte '@') ∧ c ≠ byte ':' := forall_byte (by decide)
  obtain ⟨hslash, hcolon⟩ := hclass c hstop
  rw [new_head hleft, lookahead, hlen, getElem?_append_len, hc]
  dsimp only
  rw [if_neg hslash, if_neg hcolon, Outcome.err_bind]

end Equations

section Parts

variable {h x t rest : String} {left : HostOrPathSpan} {q : PortOrTagSpan} {e : Error}

theorem exists_right (ht : Readable .port (asBytes t))
    (hend : StopsAt TagSpan.isEnd (asBytes rest)) :
    ∃ q, PortOrTagSpan.new (t ++ rest) .port = .ok q ∧ q.length.val = ByteString.len t := by
  obtain ⟨htext, hlen, hbound⟩ := ht
  obtain ⟨q, hq, hspans⟩ := PortOrTagSpan.new_ok .port htext hlen hbound
    (hend.mono TagSpan.isStop_of_isEnd) fun hslash => by cases eq_of_beq (hend _ hslash)
  exact ⟨q, hq, hspans.len⟩

theorem exists_port (rest : String) (hp : asBytes t ∈ portNumber)
    (hlen : ByteString.len t ≤ maxU8) :
    ∃ q, PortOrTagSpan.new (t ++ ("/" ++ rest)) .port = .ok q ∧
      q.Spans .port t ("/" ++ rest) ∧ q.kind = .port := by
  have hhead := head?_sep "/" rfl rest
  obtain ⟨htext, hkind⟩ := PortSpan.mem_portNumber.mp hp
  obtain ⟨q, hq, hspans⟩ := PortOrTagSpan.new_ok .port htext hlen
    (fun hk => by cases hkind.symm.trans hk) (stopsAt_sep "/" rfl rfl rest) fun _ => hkind
  refine ⟨q, hq, hspans, ?_⟩
  have hk := hspans.kind
  rw [hhead, hkind] at hk
  exact hk

/-- Of the texts behind a colon only the longest are no tags. -/
theorem tagOf_eq_err {path : PathSpan} (hpath : path.length.val = ByteString.len x)
    (hq : q.length.val = ByteString.len t) :
    tagOf path (some q) = .err e ↔ Tag.MAX_LEN < ByteString.len t ∧
      e = ⟨ByteString.len x + 1 + Tag.MAX_LEN, .tagTooLong⟩ := by
  have hle : ByteString.len x ≤ maxU8 := hpath ▸ path.length.le
  have hmax : maxU8 + 1 + Tag.MAX_LEN ≤ maxU16 := by decide
  have hsum : saturatingAddU16 (ByteString.len x + 1) Tag.MAX_LEN =
      ByteString.len x + 1 + Tag.MAX_LEN := saturatingAddU16_of_le (by omega)
  by_cases hlong : Tag.MAX_LEN < ByteString.len t
  · have htry : TagSpan.tryFrom q = .err ⟨Tag.MAX_LEN, .tagTooLong⟩ :=
      if_neg (hq ▸ Nat.not_le_of_lt hlong)
    rw [tagOf, htry, hpath, saturatingAddU16_one hle, Outcome.mapErr_err, hsum, Outcome.err_bind]
    constructor
    · intro he
      cases he
      exact ⟨hlong, rfl⟩
    · rintro ⟨-, rfl⟩
      rfl
  · have htry : TagSpan.tryFrom q = .ok ⟨q.length⟩ := if_pos (hq ▸ Nat.le_of_not_lt hlong)
    rw [tagOf, htry, Outcome.mapErr_ok, Outcome.ok_bind]
    constructor
    · intro he
      cases he
    · rintro ⟨hlt, -⟩
      exact absurd hlt hlong

/-- An underscore makes no host of a segment. -/
theorem hostTryFrom_underscore (hl : left.Spans .neutral x) (hx : asBytes x ∈ pathComponent)
    {i : Nat} (hi : (asBytes x).findIdx? (· == byte '_') = some i) :
    HostSpan.tryFrom left = .err ⟨i, .hostInvalidChar⟩ := by
  have hunder : byte '_' ∈ asBytes x := by
    obtain ⟨hlt, hbyte, -⟩ := List.findIdx?_eq_some_iff_getElem.mp hi
    rw [← eq_of_beq hbyte]
    exact List.getElem_mem hlt
  have hkind : left.kind = .path := hl.kind_eq_path.mpr hunder
  rw [HostSpan.tryFrom.eq_def, hkind]
  dsimp only
  rw [HostOrPathSpan.narrow.eq_def, hkind]
  dsimp only
  rw [hl.decider_underscore (not_upper_of_pathComponent hx) hi]
  rfl

/-- A host and a port are a domain unless they are too long together. -/
theorem fromAmbiguous_eq_err (hl : HostSpan.Ambiguous h left) (hp : left.kind ≠ .path)
    (hq : q.length.val = ByteString.len t) (hk : q.kind = .port) :
    DomainSpan.fromAmbiguous left (some q) = .err e ↔
      maxU8 < ByteString.len h + ByteString.len t ∧ e = ⟨maxU8, .portTooLong⟩ := by
  obtain ⟨host, hhost, hspans⟩ := HostSpan.tryFrom_ok hl hp (kind_ne_any hl)
  have htry : PortSpan.tryFrom q = .ok ⟨q.length⟩ := by
    rw [PortSpan.tryFrom, PortOrTagSpan.narrow, hk]
    rfl
  rw [DomainSpan.fromAmbiguous, hhost, Outcome.ok_bind]
  dsimp only
  rw [htry, Outcome.ok_bind, Outcome.ok_bind, DomainSpan.fromParts]
  constructor
  · intro he
    rcases Outcome.bind_eq_err.mp he with he | ⟨_, -, he⟩
    · obtain ⟨hnone, rfl⟩ := Outcome.okOr_eq_err.mp he
      have hover := Length.checkedAdd_eq_none.mp hnone
      rw [hspans.length, hq] at hover
      exact ⟨hover, rfl⟩
    · cases he
  · rintro ⟨hover, rfl⟩
    have hnone : host.length.checkedAdd q.length.val = none :=
      Length.checkedAdd_eq_none.mpr (by rwa [hspans.length, hq])
    rw [hnone]
    rfl

/-- A component is read in the same way at the start of a path and as a first segment. -/
theorem pathNew_eq_extend (path : PathSpan) (hx : asBytes x ∈ pathComponent)
    (hlen : path.length.val = ByteString.len x) (hstop : StopsAt HostOrPath.isStop (asBytes rest)) :
    PathSpan.new (x ++ rest) = path.extend rest := by
  obtain ⟨p, hp, hplen⟩ := PathSpan.parseComponent_ok hx (hlen ▸ path.length.le) hstop
  obtain rfl : p = path := PathSpan.eq_of_length (hplen.trans hlen.symm)
  rw [PathSpan.new, hp, Outcome.ok_bind, hplen, sliceFrom_append, Outcome.ok_bind]

/-- Only an underscore makes a first segment a path for certain. -/
theorem underscore_of_kind (hl : HostSpan.Ambiguous h left) (hkind : left.kind = .path) :
    left.Spans .neutral h ∧ byte '_' ∈ asBytes h ∧ asBytes h ∈ pathComponent := by
  rcases hl with hl | hl
  · have hunder := hl.kind_eq_path.mp hkind
    have hf : flavorOf .neutral (asBytes h) = .path := if_pos hunder
    exact ⟨hl, hunder, hl.path (by simp [hf])⟩
  · cases hl.kind.symm.trans hkind

end Parts

theorem stops_colon (rest : String) : StopsAt HostOrPath.isStop (asBytes (":" ++ rest)) :=
  stopsAt_sep ":" rfl rfl rest

theorem tagText_append (t rest : String) : tagText (some t) ++ rest = ":" ++ (t ++ rest) :=
  String.append_assoc ..

/-- An error of the table is the error of the parser. -/
theorem Fails.new_eq {src : String} {e : Error} (h : Fails src e) : new src = .err e := by
  cases h with
  | bracketed hhead he =>
    have hscan : HostOrPathSpan.new src .any = .err e := by
      rw [HostOrPathSpan.new.eq_def, hhead]
      dsimp only
      rw [if_pos rfl, he.new_eq, Outcome.err_bind]
    rw [new, hscan, Outcome.err_bind]
  | segment hhead he =>
    have hscan : HostOrPathSpan.new src .any = .err e := he.new_eq (by decide) fun _ => hhead
    rw [new, hscan, Outcome.err_bind]
  | foreign hsrc hh hc hstop =>
    subst hsrc
    obtain ⟨left, hleft, hl⟩ := Begins.exists_left (Or.inl hh)
    exact new_foreign hleft hl hc hstop
  | colon hsrc hh he =>
    subst hsrc
    obtain ⟨left, hleft, hl⟩ := hh.exists_left
    exact new_colon_err hleft hl he
  | @notPath h rest t e hsrc hh ht hend he =>
    subst hsrc
    obtain ⟨left, hleft, hl⟩ := hh.exists_left
    have htry := (pathTryFrom_eq_err hl).mpr he
    cases t with
    | none =>
      rw [tagText, String.empty_append] at hleft ⊢
      rw [new_end hleft hl hend, htry, Outcome.err_bind]
    | some t =>
      obtain ⟨q, hq, hqlen⟩ := exists_right (ht t rfl) hend
      rw [tagText_append] at hleft ⊢
      rw [new_tag hleft hl hq hqlen hend, htry, Outcome.err_bind]
  | @tagLong x t rest hsrc hx hlen ht hlong hend =>
    subst hsrc
    rw [String.append_assoc]
    obtain ⟨left, hleft, hl, htry⟩ := component_ok _ hx hlen (stops_colon (t ++ rest))
    obtain ⟨q, hq, hqlen⟩ := exists_right ht hend
    rw [new_tag hleft (Or.inl hl) hq hqlen hend, htry, Outcome.ok_bind,
      (tagOf_eq_err hl.length hqlen).mpr ⟨hlong, rfl⟩, Outcome.err_bind]
  | @notHost x t rest i hsrc hx hlen hi hq hqlen =>
    subst hsrc
    rw [String.append_assoc]
    obtain ⟨left, hleft, hl, -⟩ := component_ok _ hx hlen (stops_colon (t ++ ("/" ++ rest)))
    obtain ⟨q, hright, hspans, -⟩ := exists_port rest hq hqlen
    rw [new_port hleft (Or.inl hl) hright hspans.len, DomainSpan.fromAmbiguous,
      hostTryFrom_underscore hl hx hi]
    rfl
  | @portLong kind h t rest hsrc hh hlen hq hqlen hover =>
    subst hsrc
    rw [String.append_assoc]
    obtain ⟨left, hleft, hl, hkind, -⟩ :=
      HostSpan.ambiguous_ok _ hh hlen (stops_colon (t ++ ("/" ++ rest)))
    obtain ⟨q, hright, hspans, hport⟩ := exists_port rest hq hqlen
    rw [new_port hleft hl hright hspans.len,
      (fromAmbiguous_eq_err hl hkind hspans.len hport).mpr ⟨hover, rfl⟩, Outcome.err_bind]
  | @path x rest e hsrc hx hunder hlen he =>
    subst hsrc
    have hstop : StopsAt HostOrPath.isStop (asBytes ("/" ++ rest)) := stopsAt_sep "/" rfl rfl rest
    obtain ⟨left, hleft, hl, htry⟩ := component_ok _ hx hlen hstop
    have hnew : PathSpan.new (x ++ ("/" ++ rest)) = .err e := PathSpan.new_eq_err_iff.mpr he
    rw [pathNew_eq_extend ⟨left.length⟩ hx hl.length hstop] at hnew
    rw [new_slash hleft (Or.inl hl), if_pos (hl.kind_eq_path.mpr hunder), htry, Outcome.ok_bind,
      hnew, Outcome.err_bind]

section Sound

variable {h rest : String} {left : HostOrPathSpan} {e : Error}

theorem fails_of_slash (hleft : HostOrPathSpan.new (h ++ ("/" ++ rest)) .any = .ok left)
    (hl : HostSpan.Ambiguous h left) (herr : new (h ++ ("/" ++ rest)) = .err e) :
    Fails (h ++ ("/" ++ rest)) e := by
  have hlen := length_of_ambiguous hl
  rw [new_slash hleft hl] at herr
  by_cases hkind : left.kind = .path
  · obtain ⟨hspans, hunder, hx⟩ := underscore_of_kind hl hkind
    have htry : PathSpan.tryFrom left = .ok ⟨left.length⟩ :=
      PathSpan.tryFrom_ok hspans (by simp [flavorOf, hunder])
    rw [if_pos hkind, htry, Outcome.ok_bind] at herr
    refine .path rfl hx hunder (hlen ▸ left.length.le) (PathSpan.new_eq_err_iff.mp ?_)
    rw [pathNew_eq_extend ⟨left.length⟩ hx hlen (stopsAt_sep "/" rfl rfl rest)]
    rcases Outcome.bind_eq_err.mp herr with herr | ⟨_, -, herr⟩
    · exact herr
    · cases herr
  · obtain ⟨d, hd, -⟩ := DomainSpan.fromAmbiguous_none_ok hl hkind (kind_ne_any hl)
    rw [if_neg hkind, hd, Outcome.ok_bind] at herr
    cases herr

theorem fails_of_colon (hb : Begins h (":" ++ rest))
    (hleft : HostOrPathSpan.new (h ++ (":" ++ rest)) .any = .ok left)
    (hl : HostSpan.Ambiguous h left) (herr : new (h ++ (":" ++ rest)) = .err e) :
    Fails (h ++ (":" ++ rest)) e := by
  have hlen := length_of_ambiguous hl
  have hle : ByteString.len h ≤ maxU8 := hlen ▸ left.length.le
  cases hright : PortOrTagSpan.new rest .port with
  | panic p => exact absurd hright ((PortOrTagSpan.new_sat rest .port).ne_panic p)
  | err e' =>
    have he' := PortOrTagSpan.new_eq_err_iff.mp hright
    rw [new_colon_err hleft hl he'] at herr
    cases herr
    exact .colon rfl hb he'
  | ok q =>
    obtain ⟨t, after, rfl, hq⟩ := (PortOrTagSpan.new_sat rest .port).of_ok hright
    have hread : Readable .port (asBytes t) := ⟨hq.text, hq.len ▸ q.length.le, hq.bound⟩
    rcases end_or_slash hq.stops with hend | ⟨after, rfl⟩
    · rw [new_tag hleft hl hright hq.len hend] at herr
      rcases Outcome.bind_eq_err.mp herr with herr | ⟨path, hpath, herr⟩
      · refine .notPath (t := some t) (congrArg (h ++ ·) (tagText_append t after).symm)
          (tagText_append t after ▸ hb) ?_ hend ((pathTryFrom_eq_err hl).mp herr)
        rintro _ ⟨⟩
        exact hread
      · obtain ⟨hplen, hx⟩ := (pathTryFrom_sat hl).of_ok hpath
        rcases Outcome.bind_eq_err.mp herr with herr | ⟨_, -, herr⟩
        · obtain ⟨hlong, rfl⟩ := (tagOf_eq_err hplen hq.len).mp herr
          exact .tagLong (congrArg (h ++ ·) (String.append_assoc ..).symm) hx hle hread hlong hend
        · cases herr
    · have hport : kindOf .port (asBytes t) = .port := hq.slash (head?_sep "/" rfl after)
      have hnumber : asBytes t ∈ portNumber := PortSpan.mem_portNumber.mpr ⟨hq.text, hport⟩
      have hsrc : h ++ (":" ++ (t ++ ("/" ++ after))) = h ++ (":" ++ t ++ ("/" ++ after)) := by
        simp only [String.append_assoc]
      rw [new_port hleft hl hright hq.len] at herr
      rcases Outcome.bind_eq_err.mp herr with herr | ⟨_, -, herr⟩
      · by_cases hkind : left.kind = .path
        · obtain ⟨hspans, hunder, hx⟩ := underscore_of_kind hl hkind
          obtain ⟨i, hi⟩ : ∃ i, (asBytes h).findIdx? (· == byte '_') = some i :=
            Option.isSome_iff_exists.mp (by
              rw [List.findIdx?_isSome, List.any_eq_true]
              exact ⟨_, hunder, beq_self_eq_true _⟩)
          rw [DomainSpan.fromAmbiguous, hostTryFrom_underscore hspans hx hi] at herr
          cases herr
          exact .notHost hsrc hx hle hi hnumber hread.2.1
        · have hk : q.kind = .port := by
            have hk := hq.kind
            rw [head?_sep "/" rfl after, hport] at hk
            exact hk
          obtain ⟨hover, rfl⟩ := (fromAmbiguous_eq_err hl hkind hq.len hk).mp herr
          obtain ⟨host, -, hhost⟩ := HostSpan.tryFrom_ok hl hkind (kind_ne_any hl)
          exact .portLong hsrc hhost.text hle hnumber hread.2.1 hover
      · cases herr

end Sound

theorem fails_of_err {src : String} {e : Error} (herr : new src = .err e) : Fails src e := by
  rcases Outcome.bind_eq_err.mp herr with hscan | ⟨left, hleft, -⟩
  · by_cases hhead : (asBytes src).head? = some (byte '[')
    · rw [HostOrPathSpan.new.eq_def, hhead] at hscan
      dsimp only at hscan
      rw [if_pos rfl] at hscan
      rcases Outcome.bind_eq_err.mp hscan with hscan | ⟨_, -, hscan⟩
      · exact .bracketed hhead (Ipv6Span.new_eq_err_iff.mp hscan)
      · cases hscan
    · have hany : HostOrPath.Kind.any ≠ .ipV6 := by decide
      exact .segment hhead ((HostOrPathSpan.new_eq_err_iff hany fun _ => hhead).mp hscan)
  obtain ⟨h, after, rfl, hb, hl⟩ := exists_begins hleft
  by_cases hend : StopsAt TagSpan.isEnd (asBytes after)
  · rw [new_end hleft hl hend] at herr
    rcases Outcome.bind_eq_err.mp herr with herr | ⟨_, -, herr⟩
    · refine .notPath (t := none) ?_ ?_ (by simp) hend ((pathTryFrom_eq_err hl).mp herr)
      · rw [tagText, String.empty_append]
      · rwa [tagText, String.empty_append]
    · cases herr
  obtain ⟨c, hc, hat⟩ : ∃ c, (asBytes after).head? = some c ∧ TagSpan.isEnd c = false := by
    simpa [StopsAt] using hend
  by_cases hslash : c = byte '/'
  · subst hslash
    obtain ⟨rest, rfl⟩ := exists_append_of_head "/" hc rfl (by decide)
    exact fails_of_slash hleft hl herr
  by_cases hcolon : c = byte ':'
  · subst hcolon
    obtain ⟨rest, rfl⟩ := exists_append_of_head ":" hc rfl (by decide)
    exact fails_of_colon hb hleft hl herr
  have hstop : HostOrPath.isStop c = false := by
    simp only [HostOrPath.isStop, Bool.or_eq_false_iff, beq_eq_false_iff_ne]
    exact ⟨⟨hcolon, hslash⟩, by simpa [TagSpan.isEnd] using hat⟩
  rcases hb with hliteral | ⟨-, -, hb⟩
  · rw [new_foreign hleft hl hc hstop] at herr
    cases herr
    exact .foreign rfl hliteral hc hstop
  · cases hstop.symm.trans (hb c hc)

theorem new_eq_err_iff {src : String} {e : Error} : new src = .err e ↔ Fails src e :=
  ⟨fails_of_err, Fails.new_eq⟩

end DomainOrRefSpan

end ContainerImageDistRef
