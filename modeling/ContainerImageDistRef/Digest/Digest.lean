import ContainerImageDistRef.Digest.Encoded

/-! # Digests -/

namespace ContainerImageDistRef

open ByteString

universe u

structure DigestSpan where
  algorithm : AlgorithmSpan
  encoded : EncodedSpan
  compliance : Digest.Compliance
  deriving DecidableEq, Repr

namespace DigestSpan

def shortLen (span : DigestSpan) : LongLength :=
  (span.algorithm.length.widen.saturatingAdd 1).saturatingAdd span.encoded.length.val

def len (span : DigestSpan) : Nat := span.shortLen.val

/-- The colon after the algorithm. -/
def consumeColon (length : LongLength) (next : Option UInt8) : Outcome Err.Kind LongLength :=
  match next with
  | none => .err .algorithmMissing
  | some c =>
    if c = byte ':' then Outcome.okOr (length.checkedAdd 1) .algorithmTooLong
    else .err .algorithmInvalidChar

def new (src : String) : Outcome Error DigestSpan := do
  let (algorithmSpan, compliance) ← AlgorithmSpan.new src
  let len := algorithmSpan.length.widen
  let len ← (consumeColon len (asBytes src)[len.val]?).mapErr fun kind =>
    (⟨len.val, kind⟩ : Error)
  let rest ← sliceFrom src len.val
  let (encoded, compliance) ← (EncodedSpan.new rest compliance).mapErr fun e =>
    (⟨saturatingAddU16 e.index len.val, e.kind⟩ : Error)
  let algorithm ← Algorithm.fromSpan src algorithmSpan
  let rest ← sliceFrom src len.val
  let encodedText ← Encoded.fromSpan rest encoded
  -- the compliance this returns is dropped
  let _ ← encodedText.validateAlgorithm algorithm compliance
  .ok ⟨algorithmSpan, encoded, compliance⟩

end DigestSpan

namespace DigestSpan

open Digest Algorithm Encoded

/-- The span of the digest with the algorithm `a` and the encoded value `e`. -/
structure Spans (a e : String) (span : DigestSpan) : Prop where
  components : ∃ c, Threads .universal (components (asBytes a)) c ∧
    EncodedText c (asBytes e) span.compliance
  algorithm : span.algorithm.length.val = ByteString.len a
  encoded : span.encoded.length.val = ByteString.len e
  max : ByteString.len e ≤ Encoded.MAX_LEN
  registered : Registered a e
  min : span.compliance = .distribution → MIN_LEN ≤ ByteString.len e

/-- `algorithm ":" encoded` -/
def text (a e : String) : String := a ++ ":" ++ e

/-- The colon after an algorithm, and the index behind it. -/
theorem consumeColon_ok {a : String} {length : ShortLength}
    (h : length.val = ByteString.len a) :
    ∃ l, consumeColon length.widen (some (byte ':')) = .ok l ∧
      l.val = ByteString.len (a ++ ":") := by
  have hmax : maxU8 + 1 ≤ maxU16 := by decide
  have hle := length.le
  have hw : length.widen.val = length.val := rfl
  refine ⟨⟨length.val + 1, Nat.succ_pos _, by omega⟩, ?_, ?_⟩
  · rw [consumeColon, if_pos rfl, Length.checkedAdd, dif_pos (by omega)]
    rfl
  · rw [len_append, ← h]
    rfl

theorem algorithm_fromSpan {ε : Type u} {a : String} {span : AlgorithmSpan}
    (h : span.length.val = ByteString.len a) (rest : String) :
    (Algorithm.fromSpan (a ++ rest) span : Outcome ε Algorithm) = .ok ⟨a⟩ := by
  rw [Algorithm.fromSpan, h, sliceTo_append, Outcome.ok_bind]

theorem encoded_fromSpan {ε : Type u} {e : String} {span : EncodedSpan}
    (h : span.length.val = ByteString.len e) :
    (Encoded.fromSpan e span : Outcome ε Encoded) = .ok ⟨e⟩ := by
  rw [Encoded.fromSpan, h, sliceTo_len, Outcome.ok_bind]

theorem len_text (a e : String) :
    ByteString.len (text a e) = ByteString.len a + 1 + ByteString.len e := by
  rw [text, len_append, len_append]
  rfl

/-- The moved error of the encoded value. -/
def encodedError (a : String) (err : Error) : Error :=
  ⟨saturatingAddU16 err.index (ByteString.len (a ++ ":")), err.kind⟩

/-- After the algorithm and the colon, the rest is the encoded value. -/
theorem new_text {a e : String} {span : AlgorithmSpan} {c : Compliance}
    (h : AlgorithmSpan.new (text a e) = .ok (span, c)) (hlen : span.length.val = ByteString.len a) :
    new (text a e) = (EncodedSpan.new e c).mapErr (encodedError a) >>= fun r =>
      (⟨e⟩ : Encoded).validateAlgorithm ⟨a⟩ r.2 >>= fun _ => .ok ⟨span, r.1, r.2⟩ := by
  have hhead : (asBytes (":" ++ e)).head? = some (byte ':') := head?_sep ":" rfl e
  obtain ⟨l, hl, hindex⟩ := consumeColon_ok hlen
  have hnext : (asBytes (text a e))[ByteString.len a]? = some (byte ':') := by
    rw [text, String.append_assoc, getElem?_append_len, hhead]
  have hfrom : (Algorithm.fromSpan (text a e) span : Outcome Error Algorithm) = .ok ⟨a⟩ := by
    rw [text, String.append_assoc]
    exact algorithm_fromSpan hlen _
  rw [new, h, Outcome.ok_bind]
  dsimp only
  rw [ShortLength.widen_val, hlen, hnext, hl, Outcome.mapErr_ok, Outcome.ok_bind, hindex, hfrom,
    text, sliceFrom_append, Outcome.ok_bind]
  cases he : EncodedSpan.new e c with
  | ok r =>
    obtain ⟨-, helen, -⟩ := (EncodedSpan.new_sat e c).of_ok he
    rw [Outcome.mapErr_ok, Outcome.mapErr_ok, Outcome.ok_bind, Outcome.ok_bind]
    rw [Outcome.ok_bind, Outcome.ok_bind, encoded_fromSpan helen, Outcome.ok_bind]
  | err err => rfl
  | panic p => rfl

/-- The encoded value and the checks on it. -/
theorem encoded_sat {a e : String} {span : AlgorithmSpan} {c : Compliance}
    (hthreads : Threads .universal (Algorithm.components (asBytes a)) c)
    (hlen : span.length.val = ByteString.len a) :
    ((EncodedSpan.new e c).mapErr (encodedError a) >>= fun r =>
      (⟨e⟩ : Encoded).validateAlgorithm ⟨a⟩ r.2 >>= fun _ =>
        .ok (⟨span, r.1, r.2⟩ : DigestSpan)).Sat (Spans a e)
      fun err => AsciiUpTo (text a e) err.index := by
  have hascii : IsAscii (a ++ ":") :=
    IsAscii.append (fun b hb => (hthreads.ascii b hb).1) (by decide)
  refine Outcome.Sat.bind ((EncodedSpan.new_sat e c).mapErr fun err he => ?_)
    fun ⟨encoded, c'⟩ => ?_
  · refine (hascii.upTo.append he).mono (Nat.le_trans (saturatingAddU16_le _ _) ?_)
    rw [Nat.add_comm]
  rintro ⟨htext, helen, hmax⟩
  dsimp only at htext helen ⊢
  have hall : IsAscii (text a e) := hascii.append htext.ascii
  have hpos : 0 < ByteString.len e := helen ▸ encoded.length.pos
  refine Outcome.Sat.bind ((validateAlgorithm_sat (e := ⟨e⟩) ⟨a⟩ c' hpos hmax).mono
    (fun _ h => h) fun err he => hall.upTo.mono ?_) fun _ hvalid => ?_
  · rw [len_text]
    exact Nat.le_add_left_of_le he
  · exact ⟨⟨c, hthreads, htext⟩, hlen, helen, hmax, hvalid.1, hvalid.2⟩

/-- A successful parse has read an algorithm, a colon and an encoded value, to the end. -/
theorem new_sat (src : String) :
    (new src).Sat (fun span => ∃ a e, src = text a e ∧ Spans a e span)
      fun e => AsciiUpTo src e.index := by
  have hsat := AlgorithmSpan.new_sat src
  cases halg : AlgorithmSpan.new src with
  | err e =>
    rw [new, halg]
    exact hsat.of_err halg
  | panic p => exact absurd halg (hsat.ne_panic p)
  | ok r =>
    obtain ⟨span, c⟩ := r
    obtain ⟨a, rest, rfl, hthreads, hlen, -⟩ := hsat.of_ok halg
    dsimp only at hthreads hlen
    by_cases hcolon : (asBytes rest).head? = some (byte ':')
    · obtain ⟨e, rfl⟩ := exists_append_of_head ":" hcolon rfl (by decide)
      have htext : a ++ (":" ++ e) = text a e := (String.append_assoc ..).symm
      rw [htext] at halg ⊢
      rw [new_text halg hlen]
      exact (encoded_sat hthreads hlen).mono (fun d hd => ⟨a, e, rfl, hd⟩) fun _ he => he
    · have hascii : IsAscii a := fun b hb => (hthreads.ascii b hb).1
      have here : AsciiUpTo (a ++ rest) (ByteString.len a) := hascii.upTo.append_right rest
      rw [new, halg, Outcome.ok_bind]
      dsimp only
      rw [ShortLength.widen_val, hlen, getElem?_append_len]
      cases hhead : (asBytes rest).head? with
      | none => exact here
      | some b =>
        have hb : b ≠ byte ':' := by
          rintro rfl
          exact hcolon hhead
        rw [consumeColon, if_neg hb]
        exact here

/-- No addition in `short_len` saturates. -/
theorem Spans.len {a e : String} {span : DigestSpan} (h : Spans a e span) :
    span.shortLen.val = ByteString.len (text a e) := by
  have hmax : maxU8 + 1 + Encoded.MAX_LEN ≤ maxU16 := by decide
  have halg := span.algorithm.length.le
  have ha := h.algorithm
  have he := h.encoded
  have hm := h.max
  have hcolon : saturatingAddU16 span.algorithm.length.val 1 = span.algorithm.length.val + 1 :=
    saturatingAddU16_of_le (by omega)
  rw [len_text, shortLen, LongLength.saturatingAdd_val, LongLength.saturatingAdd_val,
    ShortLength.widen_val, hcolon, saturatingAddU16_of_le (by omega), ha, he]

theorem len_of_new {d : String} {span : DigestSpan} (h : new d = .ok span) :
    span.shortLen.val = ByteString.len d ∧
      ByteString.len d ≤ maxU8 + 1 + Encoded.MAX_LEN := by
  obtain ⟨a, e, rfl, hs⟩ := (new_sat d).of_ok h
  have ha := hs.algorithm
  have halg := span.algorithm.length.le
  have hm := hs.max
  exact ⟨hs.len, by rw [len_text]; omega⟩

theorem Spans.colon {a e : String} {span : DigestSpan} (h : Spans a e span) :
    byte ':' ∉ asBytes a := by
  obtain ⟨c, hthreads, -⟩ := h.components
  exact fun hmem => (hthreads.ascii _ hmem).2 rfl

/-- What an accepted digest is, where its first colon stands. -/
theorem spans_of_new {a e : String} {span : DigestSpan} (h : new (text a e) = .ok span)
    (ha : byte ':' ∉ asBytes a) : Spans a e span := by
  obtain ⟨a', e', htext, hspans⟩ := (new_sat _).of_ok h
  obtain ⟨rfl, rfl⟩ := append_inj_of_notMem ":" rfl ha hspans.colon htext
  exact hspans

/-- Every digest within the limits is parsed. -/
theorem new_ok {a e : String} {c c' : Compliance}
    (ha : Threads .universal (Algorithm.components (asBytes a)) c)
    (halen : ByteString.len a ≤ maxU8) (he : EncodedText c (asBytes e) c')
    (hpos : 0 < ByteString.len e) (hmax : ByteString.len e ≤ Encoded.MAX_LEN)
    (hreg : Registered a e)
    (hmin : c' = .distribution → MIN_LEN ≤ ByteString.len e) :
    ∃ span, new (text a e) = .ok span ∧ span.compliance = c' := by
  obtain ⟨aspan, haspan, haspanlen⟩ := AlgorithmSpan.new_ok (":" ++ e) ha halen
    (stopsAt_sep ":" rfl rfl e)
  obtain ⟨espan, hespan, -⟩ := EncodedSpan.new_ok he hpos hmax
  obtain ⟨v, hv⟩ := validateAlgorithm_ok (e := ⟨e⟩) (a := ⟨a⟩) hreg hmin hpos hmax
  rw [← String.append_assoc] at haspan
  refine ⟨⟨aspan, espan, c'⟩, ?_, rfl⟩
  rw [new_text haspan haspanlen, hespan, Outcome.mapErr_ok, Outcome.ok_bind, hv, Outcome.ok_bind]

end DigestSpan

structure Digest where
  src : String
  span : DigestSpan
  deriving DecidableEq, Repr

namespace Digest

def fromSpan (src : String) (span : DigestSpan) : Digest := ⟨src, span⟩

def new (src : String) : Outcome Error Digest := do
  let span ← DigestSpan.new src
  let text ← sliceTo src span.len
  .ok (fromSpan text span)

def toStr (digest : Digest) : String := digest.src

def algorithm {ε : Type u} (digest : Digest) : Outcome ε Algorithm :=
  Algorithm.fromSpan digest.src digest.span.algorithm

def encoded {ε : Type u} (digest : Digest) : Outcome ε Encoded := do
  let rest ← sliceFrom digest.src (digest.span.algorithm.length.val + 1)
  Encoded.fromSpan rest digest.span.encoded

def compliance (digest : Digest) : Compliance := digest.span.compliance

/-- The whole string is the digest. -/
theorem new_eq_ok {src : String} {d : Digest} :
    new src = .ok d ↔ ∃ span, DigestSpan.new src = .ok span ∧ d = ⟨src, span⟩ := by
  rw [new, Outcome.bind_eq_ok]
  have hslice : ∀ {span : DigestSpan}, DigestSpan.new src = .ok span →
      (sliceTo src span.len >>= fun text => .ok (fromSpan text span) : Outcome Error Digest) =
        .ok ⟨src, span⟩ := by
    intro span hspan
    rw [DigestSpan.len, (DigestSpan.len_of_new hspan).1, sliceTo_len, Outcome.ok_bind]
    rfl
  constructor
  · rintro ⟨span, hspan, hd⟩
    rw [hslice hspan] at hd
    cases hd
    exact ⟨span, hspan, rfl⟩
  · rintro ⟨span, hspan, rfl⟩
    exact ⟨span, hspan, hslice hspan⟩

theorem algorithm_eq {ε : Type u} {a e : String} {span : DigestSpan}
    (h : DigestSpan.Spans a e span) :
    (⟨DigestSpan.text a e, span⟩ : Digest).algorithm (ε := ε) = .ok ⟨a⟩ := by
  rw [algorithm, DigestSpan.text, String.append_assoc]
  exact DigestSpan.algorithm_fromSpan h.algorithm _

theorem encoded_eq {ε : Type u} {a e : String} {span : DigestSpan}
    (h : DigestSpan.Spans a e span) :
    (⟨DigestSpan.text a e, span⟩ : Digest).encoded (ε := ε) = .ok ⟨e⟩ := by
  have hcolon : len a + 1 = len (a ++ ":") := (len_append a ":").symm
  rw [encoded, h.algorithm, hcolon, DigestSpan.text, sliceFrom_append, Outcome.ok_bind]
  exact DigestSpan.encoded_fromSpan h.encoded

end Digest

end ContainerImageDistRef
