import ContainerImageDistRef.ErrorOffsets

/-!
# Where the errors of a digest stand

A digest is parsed from the slice behind the `@`, and its encoded value from
the slice behind the colon. The error of a wrong character in the encoded
value is moved over both; that of the last check, which compares the value
with the algorithm, is moved over the first only.
-/

namespace ContainerImageDistRef

open ByteString Grammar

namespace DigestSpan

open Digest

/-- Whatever follows the colon, the algorithm is read as it is alone. -/
theorem algorithm_text {a : String} {aspan : AlgorithmSpan} {c : Compliance} (e : String)
    (ha : AlgorithmSpan.new a = .ok (aspan, c)) (hlen : aspan.length.val = ByteString.len a) :
    ∃ span, AlgorithmSpan.new (text a e) = .ok (span, c) ∧
      span.length.val = ByteString.len a := by
  obtain ⟨u, rest, hsrc, hthreads, hu, -⟩ := (AlgorithmSpan.new_sat a).of_ok ha
  dsimp only at hthreads hu
  have hsplit : a ++ "" = u ++ rest := by rw [String.append_empty, hsrc]
  obtain ⟨rfl, -⟩ := append_inj hsplit (hlen.symm.trans hu)
  have hle : ByteString.len a ≤ maxU8 := hlen ▸ aspan.length.le
  obtain ⟨span, hspan, hspanlen⟩ :=
    AlgorithmSpan.new_ok (":" ++ e) hthreads hle (stopsAt_sep ":" rfl rfl e)
  refine ⟨span, ?_, hspanlen⟩
  rw [text, String.append_assoc, hspan]

/-- The error of the last check is handed on as it is. -/
theorem new_invalid {a e : String} {aspan : AlgorithmSpan} {espan : EncodedSpan}
    {c c' : Compliance} {err : Error} (ha : AlgorithmSpan.new a = .ok (aspan, c))
    (hlen : aspan.length.val = ByteString.len a) (he : EncodedSpan.new e c = .ok (espan, c'))
    (hv : (⟨e⟩ : Encoded).validateAlgorithm ⟨a⟩ c' = .err err) :
    new (text a e) = .err err := by
  obtain ⟨span, hspan, hspanlen⟩ := algorithm_text e ha hlen
  rw [new_text hspan hspanlen, he, Outcome.mapErr_ok, Outcome.ok_bind, hv, Outcome.err_bind]

/-- It stands inside the encoded value. -/
theorem invalid_index_le {e : String} {a : Algorithm} {espan : EncodedSpan} {c c' : Compliance}
    {err : Error} (he : EncodedSpan.new e c = .ok (espan, c'))
    (hv : (⟨e⟩ : Encoded).validateAlgorithm a c' = .err err) : err.index ≤ Encoded.MAX_LEN := by
  obtain ⟨-, helen, hmax⟩ := (EncodedSpan.new_sat e c).of_ok he
  have hpos : 0 < ByteString.len e := helen ▸ espan.length.pos
  have hle := (Encoded.validateAlgorithm_sat (e := ⟨e⟩) a c' hpos hmax).of_err hv
  exact Nat.le_trans hle hmax

end DigestSpan

theorem Digest.new_eq_err {src : String} {e : Error} (h : DigestSpan.new src = .err e) :
    Digest.new src = .err e := by
  rw [Digest.new, h]
  rfl

namespace RefSpan

/-- The error of a digest, moved behind the `@`. -/
def digestError (done : String) (e : Error) : Error :=
  ⟨saturatingAddU16 (len (done ++ "@")) e.index, e.kind⟩

theorem parseDigest_err {done d : String} {e : Error} (hmax : len done ≤ maxU8 + 1 + 129)
    (h : DigestSpan.new d = .err e) :
    parseDigest (done ++ digestText (some d)) (len done) = .err (digestError done e) := by
  have hbound := index_bound
  have hhead : (asBytes (digestText (some d))).head? = some (byte '@') := head?_sep "@" rfl d
  have hcat : done ++ digestText (some d) = (done ++ "@") ++ d := (String.append_assoc ..).symm
  have hindex : saturatingAddU16 (len done) 1 = len (done ++ "@") := by
    rw [saturatingAddU16_of_le (by omega), len_append]
    rfl
  rw [parseDigest, getElem?_append_len, hhead]
  dsimp only
  rw [if_pos rfl, hindex, hcat, sliceFrom_append, Outcome.ok_bind, h]
  rfl

/-- After a reference the error of a digest is moved to where it stands. -/
theorem new_digest_err {p : Parts} {d : String} {e : Error} (hp : p.digest = none)
    (h : DigestSpan.new d = .err e) :
    new (p.print ++ "@" ++ d) = .err (digestError p.print e) := by
  have hprint : p.print = p.name ++ tagText p.tag := by
    rw [Parts.print, hp, digestText, String.append_empty]
  have hcat : p.print ++ "@" ++ d = p.name ++ tagText p.tag ++ digestText (some d) := by
    rw [hprint]
    exact String.append_assoc ..
  have hname : len p.name ≤ maxU8 := p.name_le
  obtain ⟨nspan, tag, hnew, -, -, htag⟩ := readToDigest p (some d)
  rw [hcat, hnew, finish, index_tag hname htag, parseDigest_err (len_tagged_le hname tag_le) h,
    Outcome.err_bind, hprint]

theorem len_print_le {p : Parts} (hp : p.digest = none) : len p.print ≤ maxU8 + 1 + 129 := by
  rw [Parts.print, hp, digestText, String.append_empty]
  exact len_tagged_le p.name_le tag_le

end RefSpan

/-- The error of the last check on a digest stands too far to the left by the algorithm and its
colon, always. -/
theorem digest_error_index {a e : String} {aspan : AlgorithmSpan} {espan : EncodedSpan}
    {c c' : Digest.Compliance} {i : Nat} {k : Err.Kind}
    (ha : AlgorithmSpan.new a = .ok (aspan, c)) (hlen : aspan.length.val = len a)
    (he : EncodedSpan.new e c = .ok (espan, c'))
    (hv : (⟨e⟩ : Encoded).validateAlgorithm ⟨a⟩ c' = .err ⟨i, k⟩) :
    (Digest.new (a ++ ":" ++ e) = .err ⟨i, k⟩ ∧
        ¬Digest.new (a ++ ":" ++ e) = .err ⟨len a + 1 + i, k⟩) ∧
      ∀ r img, ImgRef.new r = .ok img → img.digest (ε := Empty) = .ok none →
        ImgRef.new (r ++ "@" ++ (a ++ ":" ++ e)) = .err ⟨len r + 1 + i, k⟩ ∧
          ¬ImgRef.new (r ++ "@" ++ (a ++ ":" ++ e)) = .err ⟨len r + 1 + len a + 1 + i, k⟩ := by
  have hdigest : DigestSpan.new (a ++ ":" ++ e) = .err ⟨i, k⟩ :=
    DigestSpan.new_invalid ha hlen he hv
  have hi : i ≤ Encoded.MAX_LEN := DigestSpan.invalid_index_le he hv
  constructor
  · have hnew := Digest.new_eq_err hdigest
    exact ⟨hnew, FailsAt.not_at hnew (by omega)⟩
  · intro r img himg hnone
    obtain ⟨p, span, rfl, hp, rfl⟩ := ImgRef.new_eq_ok.mp himg
    have hpdigest := hp.undigested hnone
    have hbound := RefSpan.len_print_le hpdigest
    have hmax := RefSpan.index_bound
    have hat : len (p.print ++ "@") = len p.print + 1 := len_append p.print "@"
    have hnew : ImgRef.new (p.print ++ "@" ++ (a ++ ":" ++ e)) =
        .err ⟨len p.print + 1 + i, k⟩ := by
      apply ImgRef.new_eq_err
      rw [RefSpan.new_digest_err hpdigest hdigest, RefSpan.digestError, hat]
      dsimp only
      rw [saturatingAddU16_of_le (by omega)]
    exact ⟨hnew, FailsAt.not_at hnew (by omega)⟩

theorem digest_error_index_short :
    Digest.new ("sha256" ++ ":" ++ "0") =
        .err ⟨1, .ociRegisteredAlgorithmWrongDigestLength⟩ ∧
      ∃ img, ImgRef.new "a:1" = .ok img ∧
        ImgRef.new ("a:1" ++ "@" ++ ("sha256" ++ ":" ++ "0")) =
          .err ⟨5, .ociRegisteredAlgorithmWrongDigestLength⟩ := by
  have ha : AlgorithmSpan.new "sha256" = .ok (⟨⟨6, by decide, by decide⟩⟩, .universal) := by
    decide +kernel
  have he : EncodedSpan.new "0" .universal = .ok (⟨⟨1, by decide, by decide⟩⟩, .universal) := by
    decide +kernel
  have hv : (⟨"0"⟩ : Encoded).validateAlgorithm ⟨"sha256"⟩ .universal =
      .err ⟨1, .ociRegisteredAlgorithmWrongDigestLength⟩ := by decide +kernel
  obtain ⟨img, himg⟩ : (ImgRef.new "a:1").Succeeds := by decide +kernel
  have hnone : (ImgRef.new "a:1").Sat (fun img => img.digest (ε := Empty) = .ok none)
      fun _ => False := by decide +kernel
  obtain ⟨hdigest, href⟩ := digest_error_index ha (by decide) he hv
  exact ⟨hdigest.1, img, himg, (href "a:1" img himg (hnone.of_ok himg)).1⟩

/-- The uppercase digit of `sha256:A` is reported at the start of the digest. -/
theorem digest_error_index_fails :
    AlgorithmSpan.new "sha256" = .ok (⟨⟨6, by decide, by decide⟩⟩, .universal) ∧
      EncodedSpan.new "A" .universal = .ok (⟨⟨1, by decide, by decide⟩⟩, .universal) ∧
      (⟨"A"⟩ : Encoded).validateAlgorithm ⟨"sha256"⟩ .universal =
        .err ⟨0, .ociRegisteredDigestInvalidChar⟩ ∧
      Digest.new ("sha256" ++ ":" ++ "A") = .err ⟨0, .ociRegisteredDigestInvalidChar⟩ ∧
      ¬Digest.new ("sha256" ++ ":" ++ "A") =
        .err ⟨len "sha256" + 1 + 0, .ociRegisteredDigestInvalidChar⟩ ∧
      ImgRef.new ("r" ++ "@" ++ ("sha256" ++ ":" ++ "A")) =
        .err ⟨2, .ociRegisteredDigestInvalidChar⟩ :=
  ⟨by decide +kernel, by decide +kernel, by decide +kernel, by decide +kernel, by decide +kernel,
    by decide +kernel⟩

end ContainerImageDistRef
