import ContainerImageDistRef.Name.Domain
import ContainerImageDistRef.Name.Path
import ContainerImageDistRef.Tag

/-!
# A domain or a tagged reference

The text before the first `/` is a domain, or the text up to the digest is a
path with an optional tag; the byte that follows decides.
-/

namespace ContainerImageDistRef

open ByteString Grammar

inductive DomainOrRefSpan where
  | domain (domain : DomainSpan)
  | taggedRef (path : PathSpan) (tag : Option TagSpan)
  deriving DecidableEq, Repr

namespace DomainOrRefSpan

def shortLen : DomainOrRefSpan → LongLength
  | .domain d => d.shortLen
  | .taggedRef left right =>
    match right with
    | some tag => (left.length.widen.saturatingAdd 1).saturatingAdd tag.length.val
    | none => left.length.widen

def len (span : DomainOrRefSpan) : Nat := span.shortLen.val

/-- The tag, with its error moved past the path and the colon. -/
def tagOf (path : PathSpan) (right : Option PortOrTagSpan) : Outcome Error (Option TagSpan) :=
  match right with
  | some tag => do
    let tag ← (TagSpan.tryFrom tag).mapErr fun e =>
      (⟨saturatingAddU16 (saturatingAddU16 path.length.val 1) e.index, e.kind⟩ : Error)
    .ok (some tag)
  | none => .ok none

/-- The colon after the first segment, and the port or tag that follows it. -/
def lookahead (src : String) (left : HostOrPathSpan) :
    Outcome Error (Nat × Option PortOrTagSpan) :=
  match (asBytes src)[left.length.val]? with
  | none => .ok (left.length.val, none)
  | some c =>
    if c = byte '/' ∨ c = byte '@' then .ok (left.length.val, none)
    else if c = byte ':' then do
      let len := saturatingAddU16 left.length.val 1
      let rest ← sliceFrom src len
      let right ← (PortOrTagSpan.new rest .port).mapErr fun e =>
        (⟨saturatingAddU16 len e.index, e.kind⟩ : Error)
      .ok (len, some right)
    else .err ⟨left.length.val, .portOrTagInvalidChar⟩

/-- The decision, which depends on the byte after both parts. -/
def settle (src : String) (left : HostOrPathSpan) (len : Nat)
    (right : Option PortOrTagSpan) : Outcome Error DomainOrRefSpan :=
  let len := saturatingAddU16 len ((right.map fun r => r.length.val).getD 0)
  let next := (asBytes src)[len]?
  if next = none ∨ next = some (byte '@') then do
    -- the next section must be a digest, so the right side must be a tag
    let path ← PathSpan.tryFrom left
    let tag ← tagOf path right
    .ok (.taggedRef path tag)
  else if next = some (byte '/') then
    if right.isSome then do
      -- right must be a port, so left must be a domain
      let domain ← DomainSpan.fromAmbiguous left right
      .ok (.domain domain)
    else
      match left.kind with
      | .path => do
        let path ← PathSpan.tryFrom left
        let rest ← sliceFrom src len
        let path ← path.extend rest
        let tag ← tagOf path right
        .ok (.taggedRef path tag)
      | .host | .ipV6 | .hostOrPath => do
        let domain ← DomainSpan.fromAmbiguous left right
        .ok (.domain domain)
      | .any => .err ⟨len, .hostOrPathMissing⟩
  else .panic .unreachable

def new (src : String) : Outcome Error DomainOrRefSpan := do
  let left ← HostOrPathSpan.new src .any
  let (len, right) ← lookahead src left
  settle src left len right

open PortOrTag

/-- What a successful parse has read: a domain before a slash, a path that is not
one, or a single segment and its tag. -/
inductive Spans (src : String) : DomainOrRefSpan → Prop
  | domain {h rest : String} {p : Option String} {d : DomainSpan}
      (hsrc : src = DomainSpan.text h p ++ "/" ++ rest) (hd : d.Spans h p) :
      Spans src (.domain d)
  | untagged {u rest : String} {path : PathSpan} (hsrc : src = u ++ rest)
      (hu : asBytes u ∈ Grammar.path) (hshape : Undomained (asBytes u))
      (hlen : path.length.val = ByteString.len u) (hstop : StopsAt PathSpan.isEnd (asBytes rest))
      (hsegment : byte '/' ∉ asBytes u → StopsAt TagSpan.isEnd (asBytes rest)) :
      Spans src (.taggedRef path none)
  | tagged {u t rest : String} {path : PathSpan} {tag : TagSpan}
      (hsrc : src = u ++ ":" ++ t ++ rest) (hu : asBytes u ∈ pathComponent)
      (hlen : path.length.val = ByteString.len u) (ht : TagText (asBytes t))
      (hle : ByteString.len t ≤ Tag.MAX_LEN) (htlen : tag.length.val = ByteString.len t)
      (hstop : StopsAt TagSpan.isEnd (asBytes rest)) :
      Spans src (.taggedRef path (some tag))

/-- What `lookahead` has found after the segment `h`. -/
inductive Found (h after : String) : Nat × Option PortOrTagSpan → Prop
  | nothing (hstop : StopsAt PortOrTag.isStop (asBytes after)) :
      Found h after (ByteString.len h, none)
  | right {t rest : String} {q : PortOrTagSpan} (hafter : after = ":" ++ t ++ rest)
      (hq : q.Spans .port t rest) : Found h after (ByteString.len h + 1, some q)

theorem saturatingAddU16_one {n : Nat} (h : n ≤ maxU8) : saturatingAddU16 n 1 = n + 1 :=
  saturatingAddU16_of_le (Nat.le_trans (Nat.succ_le_succ h) (by decide))

/-- After a colon a port or tag is read, and its error is moved behind the colon. -/
theorem lookahead_colon {h : String} (rest : String) {left : HostOrPathSpan}
    (hleft : left.length.val = ByteString.len h) :
    lookahead (h ++ (":" ++ rest)) left =
      (PortOrTagSpan.new rest .port).mapErr (fun e =>
        (⟨saturatingAddU16 (ByteString.len h + 1) e.index, e.kind⟩ : Error)) >>=
      fun right => .ok (ByteString.len h + 1, some right) := by
  have hle : ByteString.len h ≤ maxU8 := hleft ▸ left.length.le
  have hhead : (asBytes (":" ++ rest)).head? = some (byte ':') := head?_sep ":" rfl rest
  have hcolon : ¬(byte ':' = byte '/' ∨ byte ':' = byte '@') := by decide
  have hslice : (sliceFrom (h ++ (":" ++ rest)) (ByteString.len h + 1) :
      Outcome Error String) = .ok rest := by
    have hlen : ByteString.len (h ++ ":") = ByteString.len h + 1 := len_append h ":"
    rw [← String.append_assoc, ← hlen, sliceFrom_append]
  rw [lookahead, hleft, getElem?_append_len, hhead]
  dsimp only
  rw [if_neg hcolon, if_pos rfl, saturatingAddU16_one hle, hslice, Outcome.ok_bind]

theorem lookahead_sat {h : String} (after : String) {left : HostOrPathSpan}
    (hleft : left.length.val = ByteString.len h) (hascii : AsciiUpTo h (ByteString.len h)) :
    (lookahead (h ++ after) left).Sat (Found h after) fun e => AsciiUpTo (h ++ after) e.index := by
  by_cases hcolon : (asBytes after).head? = some (byte ':')
  · obtain ⟨rest, rfl⟩ := exists_append_of_head ":" hcolon rfl (by decide)
    have hlen : ByteString.len (h ++ ":") = ByteString.len h + 1 := len_append h ":"
    have hascii' : AsciiUpTo (h ++ ":") (ByteString.len h + 1) := hascii.append (by decide)
    rw [lookahead_colon rest hleft, ← String.append_assoc]
    refine Outcome.Sat.bind ((PortOrTagSpan.new_sat rest .port).mapErr fun e he => ?_)
      fun q => ?_
    · exact ((hlen ▸ hascii').append he.1).mono (hlen ▸ saturatingAddU16_le _ _)
    · rintro ⟨t, rest', rfl, hq⟩
      exact .right (String.append_assoc ..).symm hq
  · rw [lookahead, hleft, getElem?_append_len]
    cases hhead : (asBytes after).head? with
    | none => exact .nothing (stopsAt_of_head?_none hhead)
    | some c =>
      have hne : c ≠ byte ':' := by
        rintro rfl
        exact hcolon hhead
      dsimp only
      rw [if_neg hne]
      split
      · rename_i hc
        exact .nothing (stopsAt_of_head? hhead (by simpa [PortOrTag.isStop] using hc))
      · exact hascii.append_right after

theorem pathTryFrom_sat {h : String} {left : HostOrPathSpan} (hl : HostSpan.Ambiguous h left) :
    (PathSpan.tryFrom left).Sat
      (fun p => p.length.val = ByteString.len h ∧ asBytes h ∈ Grammar.pathComponent)
      fun e => e.index ≤ ByteString.len h := by
  rcases hl with hl | hl
  · exact PathSpan.tryFrom_sat hl
  · rw [PathSpan.tryFrom, HostOrPathSpan.narrow.eq_def, hl.kind]
    exact Nat.zero_le _

theorem length_of_ambiguous {h : String} {left : HostOrPathSpan} (hl : HostSpan.Ambiguous h left) :
    left.length.val = ByteString.len h := by
  rcases hl with hl | hl
  · exact hl.length
  · exact hl.length

theorem ascii_of_ambiguous {h : String} {left : HostOrPathSpan} (hl : HostSpan.Ambiguous h left) :
    AsciiUpTo h (ByteString.len h) := by
  apply asciiUpTo_of_bytes (List.append_nil _).symm
  rcases hl with hl | hl
  · exact hl.ascii
  · exact HostSpan.HostText.ascii (k := .ipv6) hl.literal

/-- A segment is a path of its own. -/
theorem segment_mem_path {u : List UInt8} (hu : u ∈ pathComponent) :
    u ∈ Grammar.path ∧ Undomained u := by
  have hnil : [] ∈ pathRest := Language.nil_mem_kstar _
  have happ : u ++ [] = u := List.append_nil u
  exact ⟨mem_path.mpr ⟨u, hu, [], hnil, happ⟩,
    happ ▸ (undomained_iff hu hnil).mpr (Or.inl rfl)⟩

/-- What stops the scan of a port or tag ends the name or is a slash. -/
theorem end_or_slash {rest : String} (h : StopsAt PortOrTag.isStop (asBytes rest)) :
    StopsAt TagSpan.isEnd (asBytes rest) ∨ ∃ r, rest = "/" ++ r := by
  cases hhead : (asBytes rest).head? with
  | none => exact Or.inl (stopsAt_of_head?_none hhead)
  | some c =>
    rcases PortOrTag.isStop_cases (h c hhead) with rfl | rfl
    · exact Or.inr (exists_append_of_head "/" hhead rfl (by decide))
    · exact Or.inl (stopsAt_of_head? hhead rfl)

theorem head?_of_end {rest : List UInt8} (h : StopsAt TagSpan.isEnd rest) :
    rest.head? = none ∨ rest.head? = some (byte '@') := by
  cases hhead : rest.head? with
  | none => exact Or.inl rfl
  | some c => exact Or.inr (congrArg some (eq_of_beq (h c hhead)))

section Settle
variable {done rest : String} {left : HostOrPathSpan} {n : Nat} {right : Option PortOrTagSpan}

/-- At the end and before a digest the segment is a path, and what follows a colon a tag. -/
theorem settle_end
    (hn : saturatingAddU16 n ((right.map fun r => r.length.val).getD 0) = ByteString.len done)
    (hrest : StopsAt TagSpan.isEnd (asBytes rest)) :
    settle (done ++ rest) left n right =
      PathSpan.tryFrom left >>= fun path => tagOf path right >>= fun tag =>
        .ok (.taggedRef path tag) := by
  rw [settle, hn, getElem?_append_len]
  exact if_pos (head?_of_end hrest)

/-- Before a slash, what follows a colon is a port. -/
theorem settle_port {port : PortOrTagSpan}
    (hn : saturatingAddU16 n port.length.val = ByteString.len done) :
    settle (done ++ ("/" ++ rest)) left n (some port) =
      DomainSpan.fromAmbiguous left (some port) >>= fun d => .ok (.domain d) := by
  have hhead : (asBytes ("/" ++ rest)).head? = some (byte '/') := head?_sep "/" rfl rest
  rw [settle]
  simp only [Option.map_some, Option.getD_some, hn, getElem?_append_len, hhead]
  rfl

/-- Before a slash, a segment of its own is the start of a path if only a path can contain it. -/
theorem settle_slash (hn : ByteString.len done ≤ maxU16) (hkind : left.kind ≠ .any) :
    settle (done ++ ("/" ++ rest)) left (ByteString.len done) none =
      if left.kind = .path then
        PathSpan.tryFrom left >>= fun path => path.extend ("/" ++ rest) >>= fun path =>
          .ok (.taggedRef path none)
      else DomainSpan.fromAmbiguous left none >>= fun d => .ok (.domain d) := by
  have hhead : (asBytes ("/" ++ rest)).head? = some (byte '/') := head?_sep "/" rfl rest
  have hlen : saturatingAddU16 (ByteString.len done) 0 = ByteString.len done :=
    saturatingAddU16_of_le hn
  rw [settle]
  simp only [Option.map_none, Option.getD_none, hlen, getElem?_append_len, hhead,
    sliceFrom_append]
  cases hk : left.kind with
  | any => exact absurd hk hkind
  | path => rfl
  | host => rfl
  | ipV6 => rfl
  | hostOrPath => rfl

end Settle

theorem kind_ne_any {h : String} {left : HostOrPathSpan} (hl : HostSpan.Ambiguous h left) :
    left.kind ≠ .any := by
  rcases hl with hl | hl
  · rw [hl.kind]
    cases HostOrPath.flavorOf .neutral (asBytes h) <;> exact nofun
  · rw [hl.kind]
    exact nofun

/-- A path that was extended by a continuation has not stopped before its slash. -/
theorem slash_mem_of_extend {u rest r : String} (hu : asBytes u ∈ pathRest)
    (hur : "/" ++ rest = u ++ r) (hend : StopsAt PathSpan.isEnd (asBytes r)) :
    byte '/' ∈ asBytes u := by
  rcases pathRest_cases hu with hnil | ⟨x, -, y, -, hcons⟩
  · obtain rfl : u = "" := asBytes_inj.mp hnil
    rw [String.empty_append] at hur
    subst hur
    exact absurd (hend _ (head?_sep "/" rfl rest)) (by decide)
  · rw [hcons]
    exact List.mem_cons_self

/-- A first segment with an underscore is extended to a path. -/
theorem extend_spans {h rest : String} {left : HostOrPathSpan} {path : PathSpan}
    (hl : HostSpan.Ambiguous h left) (hkind : left.kind = .path)
    (hlen : path.length.val = ByteString.len h) (hcomponent : asBytes h ∈ pathComponent) :
    (path.extend ("/" ++ rest)).Sat
      (fun path' => Spans (h ++ ("/" ++ rest)) (.taggedRef path' none))
      fun e => AsciiUpTo (h ++ ("/" ++ rest)) e.index := by
  refine (PathSpan.extend_sat ("/" ++ rest) (ascii_of_ambiguous hl) hlen).mono ?_ fun e he => he.1
  rintro path' ⟨u, r, hur, hu, hlen', hend⟩
  have hunder : byte '_' ∈ asBytes h := by
    rcases hl with hl | hl
    · exact hl.kind_eq_path.mp hkind
    · cases hl.kind.symm.trans hkind
  refine .untagged (u := h ++ u) (by rw [hur, String.append_assoc]) ?_ ?_
    (by rw [hlen', len_append]) hend ?_
  · rw [asBytes_append]
    exact mem_path.mpr ⟨_, hcomponent, _, hu, rfl⟩
  · rw [asBytes_append]
    exact (undomained_iff hcomponent hu).mpr (Or.inr hunder)
  · intro hslash
    rw [asBytes_append] at hslash
    exact absurd (List.mem_append_right _ (slash_mem_of_extend hu hur hend)) hslash

/-- With no port or tag read, the next byte tells a domain from a reference. -/
theorem settle_nothing_sat {h after : String} {left : HostOrPathSpan}
    (hl : HostSpan.Ambiguous h left) (hstop : StopsAt PortOrTag.isStop (asBytes after)) :
    (settle (h ++ after) left (ByteString.len h) none).Sat (Spans (h ++ after))
      fun e => AsciiUpTo (h ++ after) e.index := by
  have hle : ByteString.len h ≤ maxU16 :=
    Nat.le_trans (length_of_ambiguous hl ▸ left.length.le) (by decide)
  have here : ∀ {e : Error}, e.index ≤ ByteString.len h → AsciiUpTo (h ++ after) e.index :=
    fun he => ((ascii_of_ambiguous hl).append_right after).mono he
  have hpath := (pathTryFrom_sat hl).mono (fun _ hp => hp) fun _ he => here he
  rcases end_or_slash hstop with hend | ⟨rest, rfl⟩
  · rw [settle_end (saturatingAddU16_of_le hle) hend]
    apply hpath.bind
    intro path hp
    obtain ⟨hmem, hshape⟩ := segment_mem_path hp.2
    refine .untagged rfl hmem hshape hp.1 (hend.mono fun c hc => ?_) fun _ => hend
    simpa [TagSpan.isEnd, PathSpan.isEnd] using Or.inr hc
  · rw [settle_slash hle (kind_ne_any hl)]
    split
    · rename_i hkind
      refine hpath.bind fun path hp => (extend_spans hl hkind hp.1 hp.2).bind ?_
      exact fun path' hspans => hspans
    · refine ((DomainSpan.fromAmbiguous_none_sat hl).mono (fun _ hd => hd)
        fun _ he => here he).bind fun d hd => ?_
      exact .domain (String.append_assoc ..).symm hd

/-- The tag that `settle` makes of what was read as a port or a tag. -/
theorem tagOf_sat {h t rest : String} {path : PathSpan} {q : PortOrTagSpan}
    (hpath : path.length.val = ByteString.len h) (hq : q.Spans .port t rest) :
    (tagOf path (some q)).Sat
      (fun tag => ∃ tag', tag = some tag' ∧ tag'.length.val = ByteString.len t ∧
        ByteString.len t ≤ Tag.MAX_LEN)
      fun e => e.index ≤ ByteString.len h + 1 + ByteString.len t := by
  have hlen : q.length.val = ByteString.len t := hq.len
  refine Outcome.Sat.bind ((TagSpan.tryFrom_sat q).mapErr fun e he => ?_) fun tag htag => ?_
  · have h1 := saturatingAddU16_le (saturatingAddU16 path.length.val 1) e.index
    have h2 := saturatingAddU16_le path.length.val 1
    dsimp only
    omega
  · exact ⟨tag, rfl, by rw [htag.1, hlen], hlen ▸ htag.2⟩

theorem len_colon (h t : String) :
    ByteString.len (h ++ ":" ++ t) = ByteString.len h + 1 + ByteString.len t := by
  rw [len_append, len_append]
  rfl

/-- The index after a segment, a colon and a port or tag. -/
theorem index_right {h t : String} {length : ShortLength} (hh : ByteString.len h ≤ maxU8)
    (ht : length.val = ByteString.len t) :
    saturatingAddU16 (ByteString.len h + 1) length.val = ByteString.len (h ++ ":" ++ t) := by
  have hmax : maxU8 + 1 + maxU8 ≤ maxU16 := by decide
  have hle := length.le
  rw [len_colon, ← ht]
  exact saturatingAddU16_of_le (by omega)

theorem ascii_right {h t : String} (hh : AsciiUpTo h (ByteString.len h))
    (ht : TagText (asBytes t)) : AsciiUpTo (h ++ ":" ++ t) (ByteString.len (h ++ ":" ++ t)) := by
  have hcolon : AsciiUpTo (h ++ ":") (ByteString.len (h ++ ":")) := by
    rw [len_append]
    exact hh.append (by decide)
  rw [len_append (h ++ ":")]
  refine hcolon.append (asciiUpTo_of_bytes (List.append_nil _).symm fun c hc => ?_)
  exact ascii_of_isTagByte c (ht.forall c hc)

/-- What was read after a colon is a port before a slash, and a tag elsewhere. -/
theorem settle_right_sat {h t rest : String} {left : HostOrPathSpan} {q : PortOrTagSpan}
    (hl : HostSpan.Ambiguous h left) (hq : q.Spans .port t rest) :
    (settle (h ++ (":" ++ t ++ rest)) left (ByteString.len h + 1) (some q)).Sat
      (Spans (h ++ (":" ++ t ++ rest)))
      fun e => AsciiUpTo (h ++ (":" ++ t ++ rest)) e.index := by
  have hle : ByteString.len h ≤ maxU8 := length_of_ambiguous hl ▸ left.length.le
  have hindex := index_right hle hq.len
  have hcat : h ++ (":" ++ t ++ rest) = (h ++ ":" ++ t) ++ rest := by
    simp only [String.append_assoc]
  have hascii := ascii_right (ascii_of_ambiguous hl) hq.text
  have here : ∀ {e : Error}, e.index ≤ ByteString.len h + 1 + ByteString.len t →
      AsciiUpTo (h ++ ":" ++ t ++ rest) e.index :=
    fun he => (hascii.append_right rest).mono (len_colon h t ▸ he)
  rw [hcat]
  rcases end_or_slash hq.stops with hend | ⟨after, rfl⟩
  · rw [settle_end hindex hend]
    refine Outcome.Sat.bind ((pathTryFrom_sat hl).mono (fun _ hp => hp)
      fun _ he => here (Nat.le_trans he (by omega))) fun path hpath => ?_
    apply Outcome.Sat.bind ((tagOf_sat hpath.1 hq).mono (fun _ ht => ht) fun _ he => here he)
    rintro _ ⟨tag, rfl, htag, hle⟩
    exact .tagged rfl hpath.2 hpath.1 hq.text hle htag hend
  · have hport : asBytes t ∈ portNumber :=
      PortSpan.mem_portNumber.mpr ⟨hq.text, hq.slash (head?_sep "/" rfl after)⟩
    rw [settle_port hindex]
    refine Outcome.Sat.bind ((DomainSpan.fromAmbiguous_some_sat hl hq hport).mono
      (fun _ hd => hd) fun _ he => here (len_colon h t ▸ he)) fun d hd => ?_
    exact .domain (String.append_assoc ..).symm hd

/-- Every successful parse has read one of the three forms. -/
theorem new_sat (src : String) :
    (new src).Sat (Spans src) fun e => AsciiUpTo src e.index := by
  apply Outcome.Sat.bind (HostOrPathSpan.new_any_sat src)
  intro left
  rintro ⟨h, after, rfl, hl⟩
  replace hl : HostSpan.Ambiguous h left := hl.imp And.right id
  refine Outcome.Sat.bind (lookahead_sat after (length_of_ambiguous hl) (ascii_of_ambiguous hl))
    fun found hfound => ?_
  cases hfound with
  | nothing hstop => exact settle_nothing_sat hl hstop
  | right hafter hq =>
    subst hafter
    exact settle_right_sat hl hq

theorem lookahead_nothing {h : String} (after : String) {left : HostOrPathSpan}
    (hleft : left.length.val = ByteString.len h)
    (hnext : ∀ c, (asBytes after).head? = some c → c = byte '/' ∨ c = byte '@') :
    lookahead (h ++ after) left = .ok (ByteString.len h, none) := by
  rw [lookahead, hleft, getElem?_append_len]
  cases hhead : (asBytes after).head? with
  | none => rfl
  | some c =>
    dsimp only
    rw [if_pos (hnext c hhead)]

theorem lookahead_right {h t : String} (rest : String) {left : HostOrPathSpan}
    (hleft : left.length.val = ByteString.len h) (ht : TagText (asBytes t))
    (hlen : ByteString.len t ≤ maxU8)
    (hbound : kindOf .port (asBytes t) = .tag → ByteString.len t ≤ 129)
    (hstop : StopsAt PortOrTag.isStop (asBytes rest))
    (hslash : (asBytes rest).head? = some (byte '/') → kindOf .port (asBytes t) = .port) :
    ∃ q, lookahead (h ++ (":" ++ t ++ rest)) left = .ok (ByteString.len h + 1, some q) ∧
      q.Spans .port t rest := by
  obtain ⟨q, hq, hspans⟩ := PortOrTagSpan.new_ok .port ht hlen hbound hstop hslash
  refine ⟨q, ?_, hspans⟩
  have hcat : h ++ (":" ++ t ++ rest) = h ++ (":" ++ (t ++ rest)) := by
    rw [String.append_assoc]
  rw [hcat, lookahead_colon _ hleft, hq, Outcome.mapErr_ok, Outcome.ok_bind]

/-- Every host before a slash is read as a domain. -/
theorem host_ok {k : Host.Kind} {h : String} (rest : String) (ht : HostSpan.HostText k h)
    (hlen : ByteString.len h ≤ maxU8) :
    ∃ d, new (h ++ ("/" ++ rest)) = .ok (.domain d) ∧ d.Spans h none := by
  have hhead := head?_sep "/" rfl rest
  obtain ⟨left, hleft, hamb, hp, ha⟩ := HostSpan.ambiguous_ok ("/" ++ rest) ht hlen
    (stopsAt_sep "/" rfl rfl rest)
  obtain ⟨d, hd, hspans⟩ := DomainSpan.fromAmbiguous_none_ok hamb hp ha
  have hlook := lookahead_nothing ("/" ++ rest) (length_of_ambiguous hamb) fun c hc => by
    cases hhead.symm.trans hc
    exact Or.inl rfl
  refine ⟨d, ?_, hspans⟩
  rw [new, hleft, Outcome.ok_bind, hlook, Outcome.ok_bind]
  dsimp only
  rw [settle_slash (Nat.le_trans hlen (by decide)) ha, if_neg hp, hd]
  rfl

/-- Every host and port before a slash are read as a domain. -/
theorem host_port_ok {k : Host.Kind} {h q : String} (rest : String) (ht : HostSpan.HostText k h)
    (hq : asBytes q ∈ portNumber) (hbound : ByteString.len h + ByteString.len q ≤ maxU8) :
    ∃ d, new (h ++ (":" ++ q ++ ("/" ++ rest))) = .ok (.domain d) ∧ d.Spans h (some q) := by
  have hhead := head?_sep "/" rfl rest
  obtain ⟨htext, hkind⟩ := PortSpan.mem_portNumber.mp hq
  obtain ⟨left, hleft, hamb, hp, ha⟩ :=
    HostSpan.ambiguous_ok (":" ++ q ++ ("/" ++ rest)) ht (by omega) (by
      rw [String.append_assoc]
      exact stopsAt_sep ":" rfl rfl _)
  obtain ⟨port, hlook, hport⟩ := lookahead_right ("/" ++ rest) (length_of_ambiguous hamb) htext
    (by omega) (fun hk => by cases hkind.symm.trans hk) (stopsAt_sep "/" rfl rfl rest)
    fun _ => hkind
  have hportkind : port.kind = .port := by
    have hk := hport.kind
    rw [hhead, hkind] at hk
    exact hk
  obtain ⟨d, hd, hspans⟩ := DomainSpan.fromAmbiguous_some_ok hamb hp ha hport hq hportkind hbound
  have hcat : h ++ (":" ++ q ++ ("/" ++ rest)) = (h ++ ":" ++ q) ++ ("/" ++ rest) := by
    simp only [String.append_assoc]
  refine ⟨d, ?_, hspans⟩
  rw [new, hleft, Outcome.ok_bind, hlook, Outcome.ok_bind]
  dsimp only
  rw [hcat, settle_port (index_right (by omega) hport.len), hd]
  rfl

/-- Every domain before a slash is read as a domain. -/
theorem domain_ok {k : Host.Kind} {h : String} {p : Option String} (rest : String)
    (ht : HostSpan.HostText k h) (hlen : ByteString.len h ≤ maxU8)
    (hdigits : ∀ q, p = some q → asBytes q ∈ portNumber)
    (hbound : ∀ q, p = some q → ByteString.len h + ByteString.len q ≤ maxU8) :
    ∃ d, new (DomainSpan.text h p ++ ("/" ++ rest)) = .ok (.domain d) ∧ d.Spans h p := by
  cases p with
  | none => exact host_ok rest ht hlen
  | some q =>
    have hcat : DomainSpan.text h (some q) ++ ("/" ++ rest) =
        h ++ (":" ++ q ++ ("/" ++ rest)) := by
      simp only [DomainSpan.text, String.append_assoc]
    rw [hcat]
    exact host_port_ok rest ht (hdigits q rfl) (hbound q rfl)

/-- A path component is scanned as a first segment and can be taken for a path. -/
theorem component_ok {x : String} (after : String) (hx : asBytes x ∈ pathComponent)
    (hlen : ByteString.len x ≤ maxU8) (hstop : StopsAt HostOrPath.isStop (asBytes after)) :
    ∃ left, HostOrPathSpan.new (x ++ after) .any = .ok left ∧ left.Spans .neutral x ∧
      PathSpan.tryFrom left = .ok ⟨left.length⟩ := by
  have hseg : HostOrPath.Segment HostOrPath.Kind.any.flavor (asBytes x) :=
    Or.inl ⟨by simp [HostOrPath.Kind.flavor], hx⟩
  obtain ⟨left, hleft, hspans⟩ :=
    HostOrPathSpan.new_segment .any after (by simp) hseg hlen hstop
  exact ⟨left, hleft, hspans,
    PathSpan.tryFrom_ok hspans (HostOrPath.flavorOf_ne_host (by simp [HostOrPath.Kind.flavor]) hx)⟩

theorem isStop_of_tagEnd (c : UInt8) (h : TagSpan.isEnd c = true) :
    HostOrPath.isStop c = true := by
  simp only [TagSpan.isEnd, HostOrPath.isStop, Bool.or_eq_true] at h ⊢
  exact Or.inr h

/-- A single segment at the end or before a digest is a path. -/
theorem segment_ok {x rest : String} (hx : asBytes x ∈ pathComponent)
    (hlen : ByteString.len x ≤ maxU8) (hstop : StopsAt TagSpan.isEnd (asBytes rest)) :
    ∃ path, new (x ++ rest) = .ok (.taggedRef path none) ∧
      path.length.val = ByteString.len x := by
  obtain ⟨left, hleft, hspans, htry⟩ := component_ok _ hx hlen (hstop.mono isStop_of_tagEnd)
  have hlook := lookahead_nothing rest hspans.length fun c hc =>
    Or.inr (eq_of_beq (hstop c hc))
  refine ⟨⟨left.length⟩, ?_, hspans.length⟩
  rw [new, hleft, Outcome.ok_bind, hlook, Outcome.ok_bind]
  dsimp only
  rw [settle_end (saturatingAddU16_of_le (Nat.le_trans hlen (by decide))) hstop, htry]
  rfl

/-- A first segment with an underscore begins a path. -/
theorem underscore_ok {x u rest : String} (hx : asBytes x ∈ pathComponent)
    (hunder : byte '_' ∈ asBytes x) (hu : asBytes u ∈ pathRest) (hne : u ≠ "")
    (hlen : ByteString.len x + ByteString.len u ≤ maxU8)
    (hstop : StopsAt PathSpan.isEnd (asBytes rest)) :
    ∃ path, new (x ++ (u ++ rest)) = .ok (.taggedRef path none) ∧
      path.length.val = ByteString.len x + ByteString.len u := by
  have hhead : (asBytes (u ++ rest)).head? = some (byte '/') := by
    rcases pathRest_cases hu with hnil | ⟨y, -, r, -, hcons⟩
    · exact absurd (asBytes_inj.mp hnil) hne
    · rw [asBytes_append, hcons]
      rfl
  obtain ⟨left, hleft, hspans, htry⟩ := component_ok (u ++ rest) hx (by omega)
    (stopsAt_of_head? hhead rfl)
  have hlook := lookahead_nothing (u ++ rest) hspans.length fun c hc => by
    cases hhead.symm.trans hc
    exact Or.inl rfl
  have hkind : left.kind = .path := hspans.kind_eq_path.mpr hunder
  have hll := hspans.length
  have hmax : maxU8 ≤ maxU16 := by decide
  obtain ⟨path, hpath, hplen⟩ := PathSpan.extend_ok ⟨left.length⟩ hu (by simp only; omega) hstop
  obtain ⟨r, hr⟩ := exists_append_of_head "/" hhead rfl (by decide)
  refine ⟨path, ?_, by rw [hplen, hll]⟩
  rw [new, hleft, Outcome.ok_bind, hlook, Outcome.ok_bind]
  dsimp only
  rw [hr] at hpath ⊢
  rw [settle_slash (by omega) (by simp [hkind]), if_pos hkind, htry, Outcome.ok_bind, hpath]
  rfl

/-- A single segment with a tag within the limit of `TagSpan.tryFrom`. -/
theorem tagged_ok {x t : String} (rest : String) (hx : asBytes x ∈ pathComponent)
    (hlen : ByteString.len x ≤ maxU8) (ht : TagText (asBytes t))
    (hle : ByteString.len t ≤ Tag.MAX_LEN) (hstop : StopsAt TagSpan.isEnd (asBytes rest)) :
    ∃ path tag, new (x ++ (":" ++ t ++ rest)) = .ok (.taggedRef path (some tag)) ∧
      path.length.val = ByteString.len x ∧ tag.length.val = ByteString.len t := by
  have hmax : Tag.MAX_LEN ≤ maxU8 := by decide
  have hlimit : Tag.MAX_LEN ≤ 129 := by decide
  have hcat : x ++ (":" ++ t ++ rest) = (x ++ ":" ++ t) ++ rest := by
    simp only [String.append_assoc]
  obtain ⟨left, hleft, hspans, htry⟩ := component_ok (":" ++ t ++ rest) hx hlen (by
    rw [String.append_assoc]
    exact stopsAt_sep ":" rfl rfl _)
  obtain ⟨q, hlook, hq⟩ := lookahead_right rest hspans.length ht (by omega)
    (fun _ => by omega) (hstop.mono TagSpan.isStop_of_isEnd) fun hc => by
      cases eq_of_beq (hstop _ hc)
  have htag : TagSpan.tryFrom q = .ok ⟨q.length⟩ := if_pos (hq.len ▸ hle)
  refine ⟨⟨left.length⟩, ⟨q.length⟩, ?_, hspans.length, hq.len⟩
  rw [new, hleft, Outcome.ok_bind, hlook, Outcome.ok_bind]
  dsimp only
  rw [hcat, settle_end (index_right hlen hq.len) hstop, htry, Outcome.ok_bind,
    tagOf, htag]
  rfl

end DomainOrRefSpan

end ContainerImageDistRef
