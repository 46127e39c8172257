import ContainerImageDistRef.Digest.Algorithm

/-! # Encoded digest values -/

namespace ContainerImageDistRef

open ByteString

universe u

namespace Encoded

open Digest

/-- an arbitrary maximum length for the encoded section of a digest -/
def MAX_LEN : Nat := 1024

def isHex (c : UInt8) : Bool :=
  byte 'a' ≤ c && c ≤ byte 'f' || isDigit c || byte 'A' ≤ c && c ≤ byte 'F'

/-- The bytes only the OCI image spec accepts. -/
def isOciOnly (c : UInt8) : Bool :=
  byte 'g' ≤ c && c ≤ byte 'z' || byte 'G' ≤ c && c ≤ byte 'Z' || c == byte '=' ||
    c == byte '_' || c == byte '-'

def narrow (compliance : Compliance) (c : UInt8) : Outcome Err.Kind Compliance :=
  if isHex c then .ok compliance
  else if isOciOnly c then
    if compliance ≠ .distribution then .ok .oci else .err .encodedNonLowerHex
  else .err .encodedInvalidChar

/-- The loop over all bytes, with the length read so far. -/
def scanLoop (len : Nat) (compliance : Compliance) :
    List UInt8 → Outcome Error (Nat × Compliance)
  | [] => .ok (len, compliance)
  | c :: rest => do
    let compliance ← (narrow compliance c).mapErr fun kind => (⟨len, kind⟩ : Error)
    if MAX_LEN ≤ len then .err ⟨len, .encodingTooLong⟩
    else scanLoop (saturatingAddU16 len 1) compliance rest

end Encoded

structure EncodedSpan where
  length : LongLength
  deriving DecidableEq, Repr

namespace EncodedSpan

open Digest Encoded

def new (src : String) (compliance : Compliance) : Outcome Error (EncodedSpan × Compliance) := do
  let (len, compliance) ← scanLoop 0 compliance (asBytes src)
  Outcome.assert (len = ByteString.len src)
  let length ← Outcome.okOr (LongLength.new len) (⟨0, .encodedMissing⟩ : Error)
  .ok (⟨length⟩, compliance)

end EncodedSpan

structure Encoded where
  src : String
  deriving DecidableEq, Repr

namespace Encoded

open Digest

def toStr (encoded : Encoded) : String := encoded.src

def fromSpan {ε : Type u} (src : String) (span : EncodedSpan) : Outcome ε Encoded := do
  let text ← sliceTo src span.length.val
  .ok ⟨text⟩

def new (src : String) (compliance : Compliance) : Outcome Error Encoded := do
  let (span, _) ← EncodedSpan.new src compliance
  fromSpan src span

/-- `Lengthy::short_len`, which unwraps and asserts -/
def shortLen {ε : Type u} (encoded : Encoded) : Outcome ε LongLength :=
  if len encoded.src ≤ maxU16 then LongLength.nonzero (len encoded.src) else .panic .unwrap

/-- The loop of `validate_all_lower_hex` from position `i` on. -/
def lowerHexFrom (i : Nat) : List UInt8 → Outcome Error Unit
  | [] => .ok ()
  | c :: rest =>
    if byte 'a' ≤ c && c ≤ byte 'f' || isDigit c then lowerHexFrom (i + 1) rest
    else .err ⟨asU16 i, .ociRegisteredDigestInvalidChar⟩

def validateAllLowerHex (encoded : Encoded) : Outcome Error Unit :=
  lowerHexFrom 0 (asBytes encoded.src)

def validateRegisteredAlgorithms (encoded : Encoded) (algorithm : Algorithm) :
    Outcome Error Unit :=
  if algorithm.src = "sha256" ∨ algorithm.src = "sha512" then do
    encoded.validateAllLowerHex
    if algorithm.src = "sha256" ∧ len encoded.src = 64 then .ok ()
    else if algorithm.src = "sha512" ∧ len encoded.src = 128 then .ok ()
    else .err ⟨asU16 (len encoded.src), .ociRegisteredAlgorithmWrongDigestLength⟩
  else .ok ()

def validateDistribution (encoded : Encoded) : Outcome Error Unit :=
  if len encoded.src ≤ 31 then do
    let length ← encoded.shortLen
    .err ⟨length.val, .encodingTooShort⟩
  else if len encoded.src ≤ MAX_LEN then .ok ()
  else do
    let length ← encoded.shortLen
    .err ⟨length.val, .encodingTooLong⟩

def validateAlgorithm (encoded : Encoded) (algorithm : Algorithm) (compliance : Compliance) :
    Outcome Error Compliance := do
  encoded.validateRegisteredAlgorithms algorithm
  match compliance with
  | .oci => .ok .oci
  | .distribution => do
    encoded.validateDistribution
    .ok .distribution
  | .universal =>
    match encoded.validateDistribution with
    | .ok _ => .ok .universal
    | .err _ => .ok .oci
    | .panic p => .panic p

end Encoded

namespace Encoded

open Digest

/-- The bytes of an encoded value read under `c`, and the compliance they leave. -/
structure EncodedText (c : Compliance) (w : List UInt8) (c' : Compliance) : Prop where
  bytes : ∀ b ∈ w, isHex b = true ∨ isOciOnly b = true
  compliance : c' = if w.all isHex then c else .oci
  hex : c = .distribution → ∀ b ∈ w, isHex b = true

theorem ascii_of_encoded :
    ∀ b : UInt8, isHex b = true ∨ isOciOnly b = true → b < 128 :=
  forall_byte (by decide)

theorem EncodedText.ascii {c c' : Compliance} {w : List UInt8} (h : EncodedText c w c') :
    ∀ b ∈ w, b < 128 :=
  fun b hb => ascii_of_encoded b (h.bytes b hb)

theorem encodedText_nil (c : Compliance) : EncodedText c [] c :=
  ⟨by simp, by simp, by simp⟩

/-- Hexadecimal bytes leave the compliance as it is. -/
theorem EncodedText.of_hex (c : Compliance) {w : List UInt8} (h : ∀ b ∈ w, isHex b = true) :
    EncodedText c w c :=
  ⟨fun b hb => Or.inl (h b hb), (if_pos (List.all_eq_true.mpr h)).symm, fun _ => h⟩

theorem narrow_sat (c : Compliance) (b : UInt8) :
    (narrow c b).Sat (EncodedText c [b]) fun _ => True := by
  rw [narrow]
  by_cases hx : isHex b = true
  · rw [if_pos hx]
    exact ⟨by simp [hx], by simp [hx], by simp [hx]⟩
  rw [if_neg hx]
  by_cases ho : isOciOnly b = true
  · rw [if_pos ho]
    by_cases hc : c = .distribution
    · rw [if_neg (by simp [hc])]
      trivial
    · rw [if_pos hc]
      exact ⟨by simp [ho], by simp [hx], fun h => absurd h hc⟩
  · rw [if_neg ho]
    trivial

theorem EncodedText.cons {c d c' : Compliance} {b : UInt8} {w : List UInt8}
    (hb : EncodedText c [b] d) (hw : EncodedText d w c') : EncodedText c (b :: w) c' := by
  have hd : d = if isHex b = true then c else .oci := by simpa using hb.compliance
  refine ⟨?_, ?_, ?_⟩
  · intro e he
    rcases List.mem_cons.mp he with rfl | he
    · exact hb.bytes e (by simp)
    · exact hw.bytes e he
  · rw [hw.compliance, hd]
    by_cases hx : isHex b = true
    · simp [hx]
    · simp [hx]
  · intro hc
    have hx : isHex b = true := hb.hex hc b (by simp)
    have hdc : d = .distribution := by rw [hd, if_pos hx, hc]
    intro e he
    rcases List.mem_cons.mp he with rfl | he
    · exact hx
    · exact hw.hex hdc e he

theorem narrow_ok {c c' : Compliance} {b : UInt8} {w : List UInt8}
    (h : EncodedText c (b :: w) c') : ∃ d, narrow c b = .ok d ∧ EncodedText d w c' := by
  rw [narrow]
  by_cases hx : isHex b = true
  · rw [if_pos hx]
    refine ⟨c, rfl, fun e he => h.bytes e (List.mem_cons_of_mem b he), ?_,
      fun hc e he => h.hex hc e (List.mem_cons_of_mem b he)⟩
    rw [h.compliance]
    simp [hx]
  · have ho : isOciOnly b = true := (h.bytes b (by simp)).resolve_left hx
    have hc : c ≠ .distribution := fun hc => hx (h.hex hc b (by simp))
    rw [if_neg hx, if_pos ho, if_pos hc]
    refine ⟨.oci, rfl, fun e he => h.bytes e (List.mem_cons_of_mem b he), ?_, by simp⟩
    rw [h.compliance]
    simp [hx]

/-- The scan reads everything, or fails at the byte it stands at. -/
theorem scanLoop_sat {src : String} (c : Compliance) (done : List UInt8) {todo : List UInt8}
    (hsrc : asBytes src = done ++ todo) (hdone : ∀ b ∈ done, b < 128)
    (hlen : done.length ≤ MAX_LEN) :
    (scanLoop done.length c todo).Sat
      (fun r => EncodedText c todo r.2 ∧ r.1 = len src ∧ len src ≤ MAX_LEN)
      fun e => AsciiUpTo src e.index := by
  have here : AsciiUpTo src done.length := asciiUpTo_of_bytes hsrc hdone
  induction todo generalizing c done with
  | nil =>
    have hl : len src = done.length := by rw [len, hsrc, List.append_nil]
    exact ⟨encodedText_nil c, hl.symm, hl ▸ hlen⟩
  | cons b todo ih =>
    rw [scanLoop]
    refine Outcome.Sat.bind ((narrow_sat c b).mapErr fun _ _ => here) fun d hd => ?_
    by_cases hmax : MAX_LEN ≤ done.length
    · rw [if_pos hmax]
      exact here
    rw [if_neg hmax]
    have hnext : asBytes src = (done ++ [b]) ++ todo := by simpa using hsrc
    have hascii : ∀ e ∈ done ++ [b], e < 128 := by
      intro e he
      rcases List.mem_append.mp he with he | he
      · exact hdone e he
      · exact hd.ascii e he
    have hl : saturatingAddU16 done.length 1 = (done ++ [b]).length := by
      rw [List.length_append]
      exact saturatingAddU16_of_le (Nat.le_trans (Nat.lt_of_not_le hmax) (by decide))
    rw [hl]
    refine (ih d _ hnext hascii (by simp; omega) (asciiUpTo_of_bytes hnext hascii)).mono ?_
      fun e he => he
    rintro r ⟨hr, hlen', hmax'⟩
    exact ⟨hd.cons hr, hlen', hmax'⟩

theorem scanLoop_cons {n : Nat} {c : Compliance} {b : UInt8} {todo : List UInt8} :
    scanLoop n c (b :: todo) =
      ((narrow c b).mapErr fun kind => (⟨n, kind⟩ : Error)) >>= fun d =>
        if MAX_LEN ≤ n then .err ⟨n, .encodingTooLong⟩
        else scanLoop (saturatingAddU16 n 1) d todo := rfl

theorem saturatingAdd_one {n : Nat} (hn : ¬MAX_LEN ≤ n) : saturatingAddU16 n 1 = n + 1 := by
  have hmax : MAX_LEN ≤ maxU16 := by decide
  exact saturatingAddU16_of_le (by omega)

/-- The scan reads on over bytes that it allows. -/
theorem scanLoop_append {n : Nat} {c c' : Compliance} {u : List UInt8} (rest : List UInt8)
    (hu : EncodedText c u c') (hlen : n + u.length ≤ MAX_LEN) :
    scanLoop n c (u ++ rest) = scanLoop (n + u.length) c' rest := by
  induction u generalizing n c with
  | nil =>
    have hc : c' = c := by simpa using hu.compliance
    rw [hc]
    rfl
  | cons b u ih =>
    obtain ⟨d, hd, hrest⟩ := narrow_ok hu
    rw [List.length_cons] at hlen ⊢
    have hn : ¬MAX_LEN ≤ n := by omega
    rw [List.cons_append, scanLoop_cons, hd, Outcome.mapErr_ok, Outcome.ok_bind, if_neg hn,
      saturatingAdd_one hn, ih hrest (by omega), Nat.add_assoc, Nat.add_comm 1]

/-- The scan reads a text to its end. -/
theorem scanLoop_ok {c c' : Compliance} {w : List UInt8} {n : Nat} (h : EncodedText c w c')
    (hlen : n + w.length ≤ MAX_LEN) : scanLoop n c w = .ok (n + w.length, c') := by
  have hend := scanLoop_append [] h hlen
  rwa [List.append_nil] at hend

end Encoded

namespace EncodedSpan

open Digest Encoded

/-- A successful parse spans the whole text. -/
theorem new_sat (src : String) (c : Compliance) :
    (new src c).Sat
      (fun r => EncodedText c (asBytes src) r.2 ∧ r.1.length.val = ByteString.len src ∧
        ByteString.len src ≤ MAX_LEN)
      fun e => AsciiUpTo src e.index := by
  refine Outcome.Sat.bind (scanLoop_sat c [] rfl (by simp) (Nat.zero_le _))
    fun ⟨n, c'⟩ => ?_
  rintro ⟨htext, hn, hmax⟩
  dsimp only at hn ⊢
  subst hn
  rw [Outcome.assert_true rfl, Outcome.ok_bind]
  refine Outcome.Sat.bind (P := fun l : LongLength => ByteString.len src = l.val)
    (Outcome.sat_okOr (fun l hl => Length.new_eq_some.mp hl) fun _ => asciiUpTo_zero src)
    fun l hl => ⟨htext, hl.symm, hmax⟩

theorem new_ok {src : String} {c c' : Compliance} (h : EncodedText c (asBytes src) c')
    (hpos : 0 < ByteString.len src) (hmax : ByteString.len src ≤ MAX_LEN) :
    ∃ span, new src c = .ok (span, c') ∧ span.length.val = ByteString.len src := by
  let length : LongLength := ⟨ByteString.len src, hpos, Nat.le_trans hmax (by decide)⟩
  have hnew : LongLength.new (ByteString.len src) = some length := Length.new_eq_some.mpr rfl
  have hscan : scanLoop 0 c (asBytes src) = .ok (ByteString.len src, c') := by
    have h := scanLoop_ok (n := 0) h (by simpa using hmax)
    rwa [Nat.zero_add] at h
  refine ⟨⟨length⟩, ?_, rfl⟩
  rw [new, hscan, Outcome.ok_bind]
  dsimp only
  rw [Outcome.assert_true rfl, Outcome.ok_bind, hnew, Outcome.okOr_some, Outcome.ok_bind]

end EncodedSpan

namespace Encoded

open Digest

/-- `[0-9a-f]` -/
def isLowerHex (b : UInt8) : Bool := byte 'a' ≤ b && b ≤ byte 'f' || isDigit b

/-- What a registered algorithm asks of the encoded value. -/
def Registered (algorithm : String) (e : String) : Prop :=
  (algorithm = "sha256" → len e = 64 ∧ ∀ b ∈ asBytes e, isLowerHex b = true) ∧
    (algorithm = "sha512" → len e = 128 ∧ ∀ b ∈ asBytes e, isLowerHex b = true)

theorem asU16_le (n : Nat) : asU16 n ≤ n := Nat.mod_le n _

theorem lowerHexFrom_sat (i : Nat) (w : List UInt8) :
    (lowerHexFrom i w).Sat (fun _ => ∀ b ∈ w, isLowerHex b = true)
      fun e => e.index ≤ i + w.length := by
  induction w generalizing i with
  | nil =>
    intro b hb
    cases hb
  | cons c w ih =>
    rw [lowerHexFrom]
    split
    · rename_i hc
      refine (ih (i + 1)).mono (fun _ hw b hb => ?_) fun e he => ?_
      · rcases List.mem_cons.mp hb with rfl | hb
        · exact hc
        · exact hw b hb
      · rw [List.length_cons]
        omega
    · exact Nat.le_trans (asU16_le i) (Nat.le_add_right _ _)

theorem lowerHexFrom_ok (i : Nat) {w : List UInt8} (h : ∀ b ∈ w, isLowerHex b = true) :
    lowerHexFrom i w = .ok () := by
  induction w generalizing i with
  | nil => rfl
  | cons c w ih =>
    have hc : (byte 'a' ≤ c && c ≤ byte 'f' || isDigit c) = true := h c (by simp)
    rw [lowerHexFrom, if_pos hc]
    exact ih (i + 1) fun b hb => h b (List.mem_cons_of_mem c hb)

theorem validateRegistered_sat (e : Encoded) (a : Algorithm) :
    (e.validateRegisteredAlgorithms a).Sat (fun _ => Registered a.src e.src)
      fun err => err.index ≤ len e.src := by
  have hne : ¬"sha256" = "sha512" := by decide
  rw [validateRegisteredAlgorithms]
  split
  · rename_i ha
    refine Outcome.Sat.bind ((lowerHexFrom_sat 0 (asBytes e.src)).mono (fun _ h => h)
      fun err he => by simpa using he) fun _ hhex => ?_
    split
    · rename_i h
      constructor
      · intro _
        exact ⟨h.2, hhex⟩
      · intro h512
        rw [h.1] at h512
        exact absurd h512 hne
    · split
      · rename_i h
        constructor
        · intro h256
          rw [h256] at h
          exact absurd h.1 hne
        · intro _
          exact ⟨h.2, hhex⟩
      · exact asU16_le _
  · rename_i ha
    rw [not_or] at ha
    exact ⟨fun h => absurd h ha.1, fun h => absurd h ha.2⟩

theorem validateRegistered_ok {e : Encoded} {a : Algorithm} (h : Registered a.src e.src) :
    e.validateRegisteredAlgorithms a = .ok () := by
  rw [validateRegisteredAlgorithms]
  by_cases h256 : a.src = "sha256"
  · obtain ⟨hlen, hhex⟩ := h.1 h256
    rw [if_pos (Or.inl h256), validateAllLowerHex, lowerHexFrom_ok 0 hhex, Outcome.ok_bind,
      if_pos ⟨h256, hlen⟩]
  by_cases h512 : a.src = "sha512"
  · obtain ⟨hlen, hhex⟩ := h.2 h512
    rw [if_pos (Or.inr h512), validateAllLowerHex, lowerHexFrom_ok 0 hhex, Outcome.ok_bind,
      if_neg (fun h => h256 h.1), if_pos ⟨h512, hlen⟩]
  · rw [if_neg (by simp [h256, h512])]

/-- The shortest value the distribution standard accepts. -/
def MIN_LEN : Nat := 32

theorem validateDistribution_sat {e : Encoded} (hpos : 0 < len e.src)
    (hmax : len e.src ≤ MAX_LEN) :
    e.validateDistribution.Sat (fun _ => MIN_LEN ≤ len e.src) fun err => err.index ≤ len e.src := by
  have h16 : MAX_LEN ≤ maxU16 := by decide
  have hnew : LongLength.new (len e.src) = some ⟨len e.src, hpos, by omega⟩ :=
    Length.new_eq_some.mpr rfl
  rw [validateDistribution]
  split
  · rw [shortLen, if_pos (by omega), LongLength.nonzero, hnew]
    exact Nat.le_refl _
  · rename_i hshort
    exact Nat.lt_of_not_le hshort

theorem validateDistribution_ok {e : Encoded} (hmin : MIN_LEN ≤ len e.src)
    (hmax : len e.src ≤ MAX_LEN) : e.validateDistribution = .ok () := by
  have h : ¬len e.src ≤ 31 := Nat.not_le_of_lt hmin
  rw [validateDistribution, if_neg h, if_pos hmax]

/-- The checks of `validateAlgorithm`. -/
theorem validateAlgorithm_sat {e : Encoded} (a : Algorithm) (c : Compliance)
    (hpos : 0 < len e.src) (hmax : len e.src ≤ MAX_LEN) :
    (e.validateAlgorithm a c).Sat
      (fun _ => Registered a.src e.src ∧ (c = .distribution → MIN_LEN ≤ len e.src))
      fun err => err.index ≤ len e.src := by
  apply Outcome.Sat.bind (validateRegistered_sat e a)
  intro _ hreg
  have hdist := validateDistribution_sat hpos hmax
  cases c with
  | oci => exact ⟨hreg, by simp⟩
  | distribution => exact Outcome.Sat.bind hdist fun _ hmin => ⟨hreg, fun _ => hmin⟩
  | universal =>
    dsimp only
    cases hv : e.validateDistribution with
    | ok u => exact ⟨hreg, by simp⟩
    | err err => exact ⟨hreg, by simp⟩
    | panic p => exact absurd hv (hdist.ne_panic p)

theorem validateAlgorithm_ok {e : Encoded} {a : Algorithm} {c : Compliance}
    (hreg : Registered a.src e.src) (hmin : c = .distribution → MIN_LEN ≤ len e.src)
    (hpos : 0 < len e.src) (hmax : len e.src ≤ MAX_LEN) :
    (e.validateAlgorithm a c).Succeeds := by
  rw [validateAlgorithm.eq_def, validateRegistered_ok hreg, Outcome.ok_bind]
  cases c with
  | oci => exact ⟨_, rfl⟩
  | distribution =>
    dsimp only
    rw [validateDistribution_ok (hmin rfl) hmax]
    exact ⟨_, rfl⟩
  | universal =>
    dsimp only
    cases hv : e.validateDistribution with
    | ok u => exact ⟨_, rfl⟩
    | err err => exact ⟨_, rfl⟩
    | panic p => exact absurd hv ((validateDistribution_sat hpos hmax).ne_panic p)

end Encoded

end ContainerImageDistRef
