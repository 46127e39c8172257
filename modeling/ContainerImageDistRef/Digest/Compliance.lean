import ContainerImageDistRef.Digest.Digest
import Mathlib.Data.List.Basic

/-!
# Compliance and the two digest grammars

The compliance that a parse returns, against the grammars of the two
standards. Acceptance is complete for both, but two narrowings are missing: an
uppercase letter inside a component does not narrow, and neither does an
encoded value that is too short for the distribution grammar.
-/

namespace ContainerImageDistRef

open ByteString Grammar SeparatedList

namespace Digest

/-- The rule for a component of an algorithm. -/
def Standard.component : Standard → Language UInt8
  | .oci => Oci.component
  | .distribution => Distribution.component

/-- The rule for an encoded value. -/
def Standard.encoded : Standard → Language UInt8
  | .oci => Oci.encoded
  | .distribution => Distribution.encoded

def Standard.digest (standard : Standard) : Language UInt8 :=
  Grammar.digest standard.component standard.encoded

end Digest

namespace Algorithm

open Digest

theorem mem_ociComponent {x : List UInt8} :
    x ∈ Oci.component ↔ x ≠ [] ∧ ∀ b ∈ x, isLowerAlnum b = true := mem_many1_symbol

theorem mem_distributionComponent {x : List UInt8} :
    x ∈ Distribution.component ↔
      ∃ d w, x = d :: w ∧ (isUpper d || isLower d) = true ∧ ∀ b ∈ w, isAlnum b = true := by
  rw [Distribution.component, Language.mem_mul]
  constructor
  · rintro ⟨_, ⟨d, hd, rfl⟩, w, hw, rfl⟩
    exact ⟨d, w, rfl, hd, mem_kstar_symbol.mp hw⟩
  · rintro ⟨d, w, rfl, hd, hw⟩
    exact ⟨[d], ⟨d, hd, rfl⟩, w, mem_kstar_symbol.mpr hw, rfl⟩

theorem alnum_of_mem_component {standard : Standard} {x : List UInt8}
    (hx : x ∈ standard.component) : ∀ b ∈ x, isAlnum b = true := by
  cases standard with
  | oci => exact fun b hb => isAlnum_of_isLowerAlnum b ((mem_ociComponent.mp hx).2 b hb)
  | distribution =>
    obtain ⟨d, w, rfl, hd, hw⟩ := mem_distributionComponent.mp hx
    have hletter : ∀ b, (isUpper b || isLower b) = true → isAlnum b = true :=
      forall_byte (by decide)
    intro b hb
    rcases List.mem_cons.mp hb with rfl | hb
    · exact hletter b hd
    · exact hw b hb

/-- The algorithm rule of a standard, by components. -/
theorem mem_algorithm {standard : Standard} {w : List UInt8} :
    w ∈ Grammar.algorithm standard.component ↔ ∀ x ∈ components w, x ∈ standard.component :=
  mem_sepBy_symbol fun _ hx b hb =>
    (isComponentStop_of_isAlnum b (alnum_of_mem_component hx b hb)).2.1

theorem colon_not_mem_algorithm {standard : Standard} {w : List UInt8}
    (hw : w ∈ Grammar.algorithm standard.component) : byte ':' ∉ w := by
  have hall : ∀ b ∈ w, b ≠ byte ':' := by
    refine sepBy_forall (fun x hx b hb => ?_) (fun s hs b hb => ?_) hw
    · exact (isComponentStop_of_isAlnum b (alnum_of_mem_component hx b hb)).2.2
    · obtain ⟨c, hc, rfl⟩ := hs
      rw [List.mem_singleton.mp hb]
      exact (ascii_of_isSeparator c hc).2.1
  exact fun hmem => hall _ hmem rfl

theorem component_of_oci {c : Compliance} {x : List UInt8} (hx : x ∈ Oci.component)
    (hc : c.compliantWith .oci = true) :
    ∃ c', Component c c' x ∧ c'.compliantWith .oci = true := by
  have hfirst : ∀ d, isLowerAlnum d = true → (firstCompliance c d).Sat
      (fun c' => c'.compliantWith .oci = true) fun _ => False := by
    cases c with
    | distribution => cases hc
    | oci => exact forall_byte (by decide)
    | universal => exact forall_byte (by decide)
  have hcheck : ∀ c' d, isLowerAlnum d = true → checkByte c' d = .ok () := by
    intro c' d hd
    have hd' : (isLower d || isDigit d) = true := hd
    rw [checkByte.eq_def, if_pos hd']
  obtain ⟨hne, hall⟩ := mem_ociComponent.mp hx
  cases x with
  | nil => exact absurd rfl hne
  | cons d w =>
    obtain ⟨c', hf, hc'⟩ := (hfirst d (hall d (by simp))).exists_ok
    exact ⟨c', ⟨d, w, rfl, hf, fun b hb => hcheck c' b (hall b (by simp [hb]))⟩, hc'⟩

theorem component_of_distribution {c : Compliance} {x : List UInt8}
    (hx : x ∈ Distribution.component) (hc : c.compliantWith .distribution = true) :
    ∃ c', Component c c' x ∧ c'.compliantWith .distribution = true := by
  have hfirst : ∀ d, (isUpper d || isLower d) = true → (firstCompliance c d).Sat
      (fun c' => c'.compliantWith .distribution = true) fun _ => False := by
    cases c with
    | oci => cases hc
    | distribution => exact forall_byte (by decide)
    | universal => exact forall_byte (by decide)
  have hcheck : ∀ c' : Compliance, c'.compliantWith .distribution = true → ∀ d,
      isAlnum d = true → checkByte c' d = .ok () := by
    intro c' hc'
    cases c' with
    | oci => cases hc'
    | distribution => exact forall_byte (by decide)
    | universal => exact forall_byte (by decide)
  obtain ⟨d, w, rfl, hd, hw⟩ := mem_distributionComponent.mp hx
  obtain ⟨c', hf, hc'⟩ := (hfirst d hd).exists_ok
  exact ⟨c', ⟨d, w, rfl, hf, fun b hb => hcheck c' hc' b (hw b hb)⟩, hc'⟩

/-- A component of a standard keeps a compliance with it. -/
theorem component_of_mem {standard : Standard} {c : Compliance} {x : List UInt8}
    (hx : x ∈ standard.component) (hc : c.compliantWith standard = true) :
    ∃ c', Component c c' x ∧ c'.compliantWith standard = true := by
  cases standard with
  | oci => exact component_of_oci hx hc
  | distribution => exact component_of_distribution hx hc

/-- The algorithms of a standard are read, with a compliance with it. -/
theorem threads_of_mem {standard : Standard} {c : Compliance} {xs : List (List UInt8)}
    (hxs : ∀ x ∈ xs, x ∈ standard.component) (hc : c.compliantWith standard = true) :
    ∃ c', Threads c xs c' ∧ c'.compliantWith standard = true := by
  induction xs generalizing c with
  | nil => exact ⟨c, .nil c, hc⟩
  | cons x xs ih =>
    obtain ⟨d, hd, hcd⟩ := component_of_mem (hxs x (by simp)) hc
    obtain ⟨c', hthreads, hc'⟩ := ih (fun y hy => hxs y (List.mem_cons_of_mem x hy)) hcd
    exact ⟨c', .cons hd hthreads, hc'⟩

end Algorithm

namespace Encoded

open Digest

theorem mem_ociEncoded {w : List UInt8} :
    w ∈ Oci.encoded ↔ w ≠ [] ∧ ∀ b ∈ w, isHex b = true ∨ isOciOnly b = true := by
  have hbyte : ∀ b, Oci.isEncodedByte b = true ↔ isHex b = true ∨ isOciOnly b = true :=
    forall_byte (by decide)
  simp only [Oci.encoded, mem_many1_symbol, hbyte]

theorem mem_distributionEncoded {w : List UInt8} :
    w ∈ Distribution.encoded ↔ MIN_LEN ≤ w.length ∧ ∀ b ∈ w, isHex b = true := by
  have hbyte : ∀ b, Distribution.isHex b = isHex b := forall_byte (by decide)
  simp only [Distribution.encoded, mem_atLeast, hbyte, MIN_LEN]

theorem colon_not_mem_encoded {standard : Standard} {w : List UInt8}
    (hw : w ∈ standard.encoded) : byte ':' ∉ w := by
  cases standard with
  | oci => exact fun hmem => absurd ((mem_ociEncoded.mp hw).2 _ hmem) (by decide)
  | distribution => exact fun hmem => absurd ((mem_distributionEncoded.mp hw).2 _ hmem) (by decide)

/-- The values of a standard are read under a compliance with it. -/
theorem encodedText_of_mem {standard : Standard} {c : Compliance} {w : List UInt8}
    (hw : w ∈ standard.encoded) (hc : c.compliantWith standard = true) :
    w ≠ [] ∧ ∃ c', EncodedText c w c' ∧ (c' = .distribution → MIN_LEN ≤ w.length) := by
  cases standard with
  | oci =>
    obtain ⟨hne, hall⟩ := mem_ociEncoded.mp hw
    have hnot : c ≠ .distribution := by
      rintro rfl
      cases hc
    refine ⟨hne, _, ⟨hall, rfl, fun h => absurd h hnot⟩, ?_⟩
    split
    · exact fun h => absurd h hnot
    · exact nofun
  | distribution =>
    obtain ⟨hmin, hall⟩ := mem_distributionEncoded.mp hw
    refine ⟨?_, c, EncodedText.of_hex c hall, fun _ => hmin⟩
    rintro rfl
    exact absurd hmin (by decide)

end Encoded

namespace DigestSpan

open Digest Algorithm Encoded

theorem asBytes_text (a e : String) :
    asBytes (text a e) = asBytes a ++ byte ':' :: asBytes e :=
  asBytes_sep ":" rfl a e

/-- The only colon of a digest stands between its two parts. -/
theorem text_mem_digest (standard : Standard) {a e : String} :
    asBytes (text a e) ∈ standard.digest ↔
      asBytes a ∈ Grammar.algorithm standard.component ∧ asBytes e ∈ standard.encoded := by
  rw [asBytes_text, Standard.digest, Grammar.digest, Language.mem_mul]
  constructor
  · rintro ⟨_, hcolon, y, hy, hxy⟩
    obtain ⟨x, hx, s, hs, rfl⟩ := Language.mem_mul.mp hcolon
    obtain rfl := mem_char.mp hs
    rw [List.append_assoc, List.singleton_append, List.append_cons_inj_of_notMem
      (colon_not_mem_algorithm hx) (colon_not_mem_encoded hy)] at hxy
    obtain ⟨rfl, -, rfl⟩ := hxy
    exact ⟨hx, hy⟩
  · rintro ⟨ha, he⟩
    exact ⟨_, Language.append_mem_mul ha (mem_char.mpr rfl), _, he, by simp⟩

/-- Every digest of a standard is parsed, within the limits on its lengths. -/
theorem new_of_mem {standard : Standard} {a e : String}
    (h : asBytes (text a e) ∈ standard.digest) (hreg : Registered a e)
    (hmaxa : ByteString.len a ≤ maxU8) (hmaxe : ByteString.len e ≤ Encoded.MAX_LEN) :
    ∃ span, new (text a e) = .ok span := by
  obtain ⟨ha, he⟩ := (text_mem_digest _).mp h
  obtain ⟨c, hthreads, hc⟩ := threads_of_mem (c := .universal) (mem_algorithm.mp ha) rfl
  obtain ⟨hne, c', htext, hmin⟩ := encodedText_of_mem he hc
  have hpos : 0 < ByteString.len e := List.length_pos_of_ne_nil hne
  obtain ⟨span, hspan, -⟩ := new_ok hthreads hmaxa htext hpos hmaxe hreg hmin
  exact ⟨span, hspan⟩

/-- An algorithm in lower case asks of the encoded value what its registration asks. -/
theorem new_registered {a : String} (n : Nat) (ha : asBytes a ∈ Oci.component)
    (hreg : ∀ e, Registered a e ↔ ByteString.len e = n ∧ ∀ b ∈ asBytes e, isLowerHex b = true)
    (halen : ByteString.len a ≤ maxU8) (hmin : MIN_LEN ≤ n) (hmax : n ≤ Encoded.MAX_LEN)
    (e : String) : (Digest.new (text a e)).Succeeds ↔
      ByteString.len e = n ∧ ∀ b ∈ asBytes e, isLowerHex b = true := by
  have halg : asBytes a ∈ Grammar.algorithm Standard.oci.component := mem_sepBy_of_mem ha
  rw [← hreg]
  constructor
  · rintro ⟨d, hd⟩
    obtain ⟨span, hspan, -⟩ := Digest.new_eq_ok.mp hd
    exact (spans_of_new hspan (colon_not_mem_algorithm halg)).registered
  · intro h
    obtain ⟨hlen, hhex⟩ := (hreg e).mp h
    have hbyte : ∀ b, isLowerHex b = true → isHex b = true := forall_byte (by decide)
    have hall : ∀ b ∈ asBytes e, isHex b = true := fun b hb => hbyte b (hhex b hb)
    obtain ⟨c, hthreads, -⟩ := threads_of_mem (c := .universal) (mem_algorithm.mp halg) rfl
    have hpos : 0 < MIN_LEN := by decide
    obtain ⟨span, hspan, -⟩ := new_ok hthreads halen (EncodedText.of_hex c hall) (by omega)
      (hlen ▸ hmax) h fun _ => hlen ▸ hmin
    exact ⟨_, Digest.new_eq_ok.mpr ⟨span, hspan, rfl⟩⟩

end DigestSpan

/-- Acceptance is complete for the digests of both standards, and exact on the registered
algorithms. -/
theorem digest_acceptance :
    (∀ a e : String, 1 ≤ len a → len a ≤ 255 → a ≠ "sha256" → a ≠ "sha512" → len e ≤ 1024 →
      asBytes (a ++ ":" ++ e) ∈ Oci.digest ∨ asBytes (a ++ ":" ++ e) ∈ Distribution.digest →
      ∃ d, Digest.new (a ++ ":" ++ e) = .ok d ∧ d.algorithm (ε := Empty) = .ok ⟨a⟩ ∧
        d.encoded (ε := Empty) = .ok ⟨e⟩) ∧
    (∀ e : String, (Digest.new ("sha256:" ++ e)).Succeeds ↔
      len e = 64 ∧ ∀ b ∈ asBytes e, Encoded.isLowerHex b = true) ∧
    ∀ e : String, (Digest.new ("sha512:" ++ e)).Succeeds ↔
      len e = 128 ∧ ∀ b ∈ asBytes e, Encoded.isLowerHex b = true := by
  refine ⟨fun a e _ ha h256 h512 he hmem => ?_, fun e => ?_, fun e => ?_⟩
  · have hreg : Encoded.Registered a e := ⟨fun h => absurd h h256, fun h => absurd h h512⟩
    obtain ⟨standard, hdigest⟩ : ∃ standard : Digest.Standard,
        asBytes (DigestSpan.text a e) ∈ standard.digest := by
      rcases hmem with hmem | hmem
      · exact ⟨.oci, hmem⟩
      · exact ⟨.distribution, hmem⟩
    have hcolon :=
      Algorithm.colon_not_mem_algorithm ((DigestSpan.text_mem_digest standard).mp hdigest).1
    obtain ⟨span, hspan⟩ := DigestSpan.new_of_mem hdigest hreg ha he
    have hspans := DigestSpan.spans_of_new hspan hcolon
    exact ⟨⟨DigestSpan.text a e, span⟩, Digest.new_eq_ok.mpr ⟨span, hspan, rfl⟩,
      Digest.algorithm_eq hspans, Digest.encoded_eq hspans⟩
  · have hreg : ∀ e, Encoded.Registered "sha256" e ↔
        len e = 64 ∧ ∀ b ∈ asBytes e, Encoded.isLowerHex b = true := fun e =>
      ⟨fun h => h.1 rfl, fun h => ⟨fun _ => h, fun hne => absurd hne (by decide)⟩⟩
    exact DigestSpan.new_registered 64
      (Algorithm.mem_ociComponent.mpr ⟨by decide, List.all_eq_true.mp (by decide)⟩) hreg
      (by decide) (by decide) (by decide) e
  · have hreg : ∀ e, Encoded.Registered "sha512" e ↔
        len e = 128 ∧ ∀ b ∈ asBytes e, Encoded.isLowerHex b = true := fun e =>
      ⟨fun h => h.2 rfl, fun h => ⟨fun hne => absurd hne (by decide), fun _ => h⟩⟩
    exact DigestSpan.new_registered 128
      (Algorithm.mem_ociComponent.mpr ⟨by decide, List.all_eq_true.mp (by decide)⟩) hreg
      (by decide) (by decide) (by decide) e

theorem digest_acceptance_mixed : ∃ d, Digest.new "a+B1:0123456789abcdefABCDEF0123456789" = .ok d ∧
    d.algorithm (ε := Empty) = .ok ⟨"a+B1"⟩ := by
  have halg : asBytes "a+B1" ∈ Grammar.algorithm Digest.Standard.distribution.component := by
    refine Algorithm.mem_algorithm.mpr fun x hx => Algorithm.mem_distributionComponent.mpr ?_
    have hcases : x = asBytes "a" ∨ x = asBytes "B1" := by
      have hsplit : Algorithm.components (asBytes "a+B1") = [asBytes "a", asBytes "B1"] := by
        decide
      rw [hsplit] at hx
      simpa using hx
    rcases hcases with rfl | rfl
    · exact ⟨_, [], rfl, by decide, by simp⟩
    · exact ⟨_, [_], rfl, by decide, List.all_eq_true.mp (by decide)⟩
  have henc : asBytes "0123456789abcdefABCDEF0123456789" ∈
      Digest.Standard.distribution.encoded :=
    Encoded.mem_distributionEncoded.mpr ⟨by decide, List.all_eq_true.mp (by decide)⟩
  obtain ⟨d, hd, ha, -⟩ := digest_acceptance.1 "a+B1" "0123456789abcdefABCDEF0123456789"
    (by decide) (by decide) (by decide) (by decide) (by decide)
    (Or.inr ((DigestSpan.text_mem_digest .distribution).mpr ⟨halg, henc⟩))
  exact ⟨d, hd, ha⟩

namespace Algorithm

open Digest

/-- Some component begins with a byte with `p`. -/
def SomeStart (p : UInt8 → Bool) (xs : List (List UInt8)) : Prop :=
  ∃ x ∈ xs, x.head?.any p = true

instance (p : UInt8 → Bool) (xs : List (List UInt8)) : Decidable (SomeStart p xs) :=
  List.decidableBEx _ _

theorem someStart_cons {p : UInt8 → Bool} {x : List UInt8} {xs : List (List UInt8)} :
    SomeStart p (x :: xs) ↔ x.head?.any p = true ∨ SomeStart p xs := by
  simp [SomeStart]

/-- The first byte of a component decides what it narrows. -/
theorem Component.compliance {c c' : Compliance} {x : List UInt8} (h : Component c c' x) :
    (c' = .distribution ↔ c = .distribution ∨ x.head?.any isUpper = true) ∧
      (c' = .oci ↔ c = .oci ∨ x.head?.any isDigit = true) := by
  have hfirst : ∀ d, firstCompliance c d = .ok c' →
      (c' = .distribution ↔ c = .distribution ∨ isUpper d = true) ∧
        (c' = .oci ↔ c = .oci ∨ isDigit d = true) := by
    cases c <;> cases c' <;> exact forall_byte (by decide)
  obtain ⟨d, w, rfl, hd, -⟩ := h
  exact hfirst d hd

/-- The compliance after all components is decided by their first bytes. -/
theorem Threads.compliance {c c' : Compliance} {xs : List (List UInt8)} (h : Threads c xs c') :
    (c' = .distribution ↔ c = .distribution ∨ SomeStart isUpper xs) ∧
      (c' = .oci ↔ c = .oci ∨ SomeStart isDigit xs) := by
  induction h with
  | nil c => simp [SomeStart]
  | cons hx hxs ih =>
    obtain ⟨hdist, hoci⟩ := hx.compliance
    obtain ⟨ihdist, ihoci⟩ := ih
    rw [ihdist, ihoci, hdist, hoci, someStart_cons, someStart_cons, or_assoc, or_assoc]
    exact ⟨Iff.rfl, Iff.rfl⟩

theorem Threads.oci_iff {xs : List (List UInt8)} {c : Compliance} (h : Threads .universal xs c) :
    c.compliantWith .oci = true ↔ ¬SomeStart isUpper xs := by
  have hdist : c = .distribution ↔ SomeStart isUpper xs := by simpa using h.compliance.1
  rw [← hdist]
  cases c <;> simp [Compliance.compliantWith]

theorem Threads.distribution_iff {xs : List (List UInt8)} {c : Compliance}
    (h : Threads .universal xs c) :
    c.compliantWith .distribution = true ↔ ¬SomeStart isDigit xs := by
  have hoci : c = .oci ↔ SomeStart isDigit xs := by simpa using h.compliance.2
  rw [← hoci]
  cases c <;> simp [Compliance.compliantWith]

theorem someStart_upper {w : List UInt8} (h : SomeStart isUpper (components w)) :
    ∃ x ∈ components w, ∃ b ∈ x, isUpper b = true := by
  obtain ⟨x, hx, hb⟩ := h
  obtain ⟨b, hhead, hupper⟩ := (Option.any_eq_true _ _).mp hb
  exact ⟨x, hx, b, List.mem_of_mem_head? hhead, hupper⟩

theorem Threads.component {c c' : Compliance} {xs : List (List UInt8)} (h : Threads c xs c') :
    ∀ x ∈ xs, x ≠ [] ∧ ∀ b ∈ x, isAlnum b = true := by
  induction h with
  | nil c => simp
  | cons hx hxs ih =>
    intro y hy
    rcases List.mem_cons.mp hy with rfl | hy
    · constructor
      · obtain ⟨d, w, rfl, -⟩ := hx
        exact List.cons_ne_nil d w
      · exact hx.alnum
    · exact ih y hy

/-- An accepted algorithm is in the OCI grammar where it has no uppercase letter. -/
theorem Threads.mem_oci {c : Compliance} {w : List UInt8}
    (h : Threads .universal (components w) c) :
    w ∈ Grammar.algorithm Standard.oci.component ↔
      ¬∃ x ∈ components w, ∃ b ∈ x, isUpper b = true := by
  have hbyte : ∀ b, isAlnum b = true → (isLowerAlnum b = true ↔ ¬isUpper b = true) :=
    forall_byte (by decide)
  rw [mem_algorithm]
  constructor
  · rintro hall ⟨x, hx, b, hb, hupper⟩
    have hlower := (mem_ociComponent.mp (hall x hx)).2 b hb
    exact (hbyte b ((h.component x hx).2 b hb)).mp hlower hupper
  · intro hnone x hx
    apply mem_ociComponent.mpr
    constructor
    · exact (h.component x hx).1
    · intro b hb
      apply (hbyte b ((h.component x hx).2 b hb)).mpr
      intro hupper
      exact hnone ⟨x, hx, b, hb, hupper⟩

/-- An accepted algorithm is in the distribution grammar where no component begins with a
digit. -/
theorem Threads.mem_distribution {c : Compliance} {w : List UInt8}
    (h : Threads .universal (components w) c) :
    w ∈ Grammar.algorithm Standard.distribution.component ↔
      ¬SomeStart isDigit (components w) := by
  have hbyte : ∀ b, isAlnum b = true →
      ((isUpper b || isLower b) = true ↔ ¬isDigit b = true) :=
    forall_byte (by decide)
  rw [mem_algorithm]
  constructor
  · rintro hall ⟨x, hx, hdigit⟩
    obtain ⟨d, v, rfl, hd, -⟩ := mem_distributionComponent.mp (hall x hx)
    exact (hbyte d ((h.component _ hx).2 d (by simp))).mp hd hdigit
  · intro hnone x hx
    obtain ⟨hne, halnum⟩ := h.component x hx
    cases x with
    | nil => exact absurd rfl hne
    | cons d v =>
      refine mem_distributionComponent.mpr ⟨d, v, rfl, ?_, fun b hb => halnum b (by simp [hb])⟩
      exact (hbyte d (halnum d (by simp))).mpr fun hdigit => hnone ⟨_, hx, hdigit⟩

end Algorithm

namespace DigestSpan

open Digest Algorithm Encoded

/-- The compliance of an accepted digest, in terms of its text. -/
theorem Spans.compliance_iff {a e : String} {span : DigestSpan} (h : Spans a e span) :
    (span.compliance.compliantWith .oci = true ↔
        ¬SomeStart isUpper (Algorithm.components (asBytes a))) ∧
      (span.compliance.compliantWith .distribution = true ↔
        ¬SomeStart isDigit (Algorithm.components (asBytes a)) ∧
          ∀ b ∈ asBytes e, isHex b = true) := by
  obtain ⟨c, hthreads, htext⟩ := h.components
  have hhex := htext.hex
  rw [htext.compliance, ← hthreads.oci_iff, ← hthreads.distribution_iff, ← List.all_eq_true]
  by_cases hall : (asBytes e).all isHex = true
  · rw [if_pos hall, and_iff_left hall]
    cases c <;> simp [Compliance.compliantWith]
  · have hnot : c ≠ .distribution := fun hc => hall (List.all_eq_true.mpr (hhex hc))
    rw [if_neg hall]
    cases c with
    | distribution => exact absurd rfl hnot
    | oci => simp [Compliance.compliantWith, hall]
    | universal => simp [Compliance.compliantWith, hall]

/-- Where a component begins with an uppercase letter, the digest has been checked against
the whole distribution grammar. -/
theorem Spans.upper {a e : String} {span : DigestSpan} (h : Spans a e span)
    (hupper : SomeStart isUpper (Algorithm.components (asBytes a))) :
    ¬SomeStart isDigit (Algorithm.components (asBytes a)) ∧
      (∀ b ∈ asBytes e, isHex b = true) ∧ MIN_LEN ≤ ByteString.len e := by
  obtain ⟨c, hthreads, htext⟩ := h.components
  have hc : c = .distribution := hthreads.compliance.1.mpr (Or.inr hupper)
  have hhex := htext.hex hc
  subst hc
  refine ⟨fun hdigit => ?_, hhex, h.min ?_⟩
  · have hoci := hthreads.compliance.2.mpr (Or.inr hdigit)
    cases hoci
  · rw [htext.compliance, if_pos (List.all_eq_true.mpr hhex)]

/-- The two grammars on an accepted digest. -/
theorem Spans.mem_digest {a e : String} {span : DigestSpan} (h : Spans a e span) :
    (asBytes (text a e) ∈ Oci.digest ↔
        ¬∃ x ∈ Algorithm.components (asBytes a), ∃ b ∈ x, isUpper b = true) ∧
      (asBytes (text a e) ∈ Distribution.digest ↔
        ¬SomeStart isDigit (Algorithm.components (asBytes a)) ∧
          (∀ b ∈ asBytes e, isHex b = true) ∧ MIN_LEN ≤ ByteString.len e) := by
  obtain ⟨c, hthreads, htext⟩ := h.components
  have hne : asBytes e ≠ [] := by
    intro hnil
    have hpos := span.encoded.length.pos
    rw [h.encoded, ByteString.len, hnil] at hpos
    exact absurd hpos (by decide)
  constructor
  · rw [← hthreads.mem_oci]
    refine (text_mem_digest .oci).trans (and_iff_left ?_)
    exact mem_ociEncoded.mpr ⟨hne, htext.bytes⟩
  · rw [← hthreads.mem_distribution]
    refine (text_mem_digest .distribution).trans (and_congr_right fun _ => ?_)
    exact mem_distributionEncoded.trans And.comm

end DigestSpan

namespace Digest

/-- The bytes before the first colon. -/
def algorithmBytes (src : String) : List UInt8 := (asBytes src).takeWhile (· != byte ':')

/-- The bytes after the first colon. -/
def encodedBytes (src : String) : List UInt8 :=
  ((asBytes src).dropWhile (· != byte ':')).drop 1

/-- The compliance of the digest is what the two grammars say of its text. -/
structure ComplianceExact (src : String) (d : Digest) : Prop where
  oci : d.compliance.compliantWith .oci = true ↔ asBytes src ∈ Oci.digest
  distribution : d.compliance.compliantWith .distribution = true ↔
    asBytes src ∈ Distribution.digest
  some : asBytes src ∈ Oci.digest ∨ asBytes src ∈ Distribution.digest

/-- An uppercase letter comes with a component that begins with one, and a short encoded
value with another reason not to be compliant with the distribution grammar. -/
def NoLostNarrowing (src : String) : Prop :=
  ((∃ x ∈ Algorithm.components (algorithmBytes src), ∃ b ∈ x, isUpper b = true) →
      Algorithm.SomeStart isUpper (Algorithm.components (algorithmBytes src))) ∧
    (32 ≤ (encodedBytes src).length ∨ (∃ b ∈ encodedBytes src, Encoded.isHex b = false) ∨
      Algorithm.SomeStart isDigit (Algorithm.components (algorithmBytes src)))

theorem bytes_of_text {a : String} (e : String) (ha : byte ':' ∉ asBytes a) :
    algorithmBytes (DigestSpan.text a e) = asBytes a ∧
      encodedBytes (DigestSpan.text a e) = asBytes e := by
  have hne : ∀ b ∈ asBytes a, (b != byte ':') = true := fun b hb => by
    simp only [bne_iff_ne]
    rintro rfl
    exact ha hb
  rw [algorithmBytes, encodedBytes, DigestSpan.asBytes_text,
    List.takeWhile_append_of_pos hne, List.dropWhile_append_of_pos hne]
  simp

theorem complianceExact_of_spans {a e : String} {span : DigestSpan}
    (h : DigestSpan.Spans a e span) :
    ComplianceExact (DigestSpan.text a e) ⟨DigestSpan.text a e, span⟩ ↔
      NoLostNarrowing (DigestSpan.text a e) := by
  obtain ⟨ha, he⟩ := bytes_of_text e h.colon
  obtain ⟨hoci, hdist⟩ := h.compliance_iff
  obtain ⟨hmemOci, hmemDist⟩ := h.mem_digest
  have hhex : (∃ b ∈ asBytes e, Encoded.isHex b = false) ↔
      ¬∀ b ∈ asBytes e, Encoded.isHex b = true := by simp
  rw [NoLostNarrowing, ha, he, length_asBytes, hhex]
  have hmin : Encoded.MIN_LEN = 32 := rfl
  rw [hmin] at hmemDist
  constructor
  · rintro ⟨hexactOci, hexactDist, -⟩
    constructor
    · intro hletter
      by_contra hnone
      exact hmemOci.mp (hexactOci.mp (hoci.mpr hnone)) hletter
    · by_cases hall : ∀ b ∈ asBytes e, Encoded.isHex b = true
      · by_cases hdigit : Algorithm.SomeStart isDigit (Algorithm.components (asBytes a))
        · exact Or.inr (Or.inr hdigit)
        · exact Or.inl (hmemDist.mp (hexactDist.mp (hdist.mpr ⟨hdigit, hall⟩))).2.2
      · exact Or.inr (Or.inl hall)
  · rintro ⟨hletter, hshort⟩
    refine ⟨hoci.trans ?_, hdist.trans ?_, ?_⟩
    · rw [hmemOci]
      exact not_congr ⟨Algorithm.someStart_upper, hletter⟩
    · rw [hmemDist]
      apply and_congr_right
      intro hdigit
      constructor
      · intro hall
        exact ⟨hall, hshort.resolve_right (not_or.mpr ⟨not_not_intro hall, hdigit⟩)⟩
      · intro hall
        exact hall.1
    · by_cases hupper : ∃ x ∈ Algorithm.components (asBytes a), ∃ b ∈ x, isUpper b = true
      · exact Or.inr (hmemDist.mpr (h.upper (hletter hupper)))
      · exact Or.inl (hmemOci.mpr hupper)

/-- Compliance is exact precisely where no narrowing is lost. -/
theorem compliance_exact_iff {src : String} {d : Digest} (h : Digest.new src = .ok d) :
    ComplianceExact src d ↔ NoLostNarrowing src := by
  obtain ⟨span, hspan, rfl⟩ := new_eq_ok.mp h
  obtain ⟨a, e, rfl, hspans⟩ := (DigestSpan.new_sat src).of_ok hspan
  exact complianceExact_of_spans hspans

theorem compliance_exact_iff_oci :
    ∃ d, Digest.new "a+1b:zz" = .ok d ∧ ComplianceExact "a+1b:zz" d := by
  obtain ⟨d, hd⟩ : (Digest.new "a+1b:zz").Succeeds := by decide +kernel
  exact ⟨d, hd, (compliance_exact_iff hd).mpr ⟨by decide, by decide⟩⟩

/-- An accepted digest that neither standard accepts, with a compliance with both. -/
theorem compliance_not_exact :
    ∃ d, Digest.new "aB:0" = .ok d ∧ d.compliance = .universal ∧ ¬ComplianceExact "aB:0" d ∧
      asBytes "aB:0" ∉ Oci.digest ∧ asBytes "aB:0" ∉ Distribution.digest := by
  obtain ⟨d, hd⟩ : (Digest.new "aB:0").Succeeds := by decide +kernel
  obtain ⟨span, hspan, rfl⟩ := new_eq_ok.mp hd
  have hspans : DigestSpan.Spans "aB" "0" span :=
    DigestSpan.spans_of_new hspan (by decide)
  obtain ⟨hoci, hdist⟩ := hspans.mem_digest
  have hnotOci : asBytes "aB:0" ∉ Oci.digest := fun h =>
    hoci.mp h ⟨asBytes "aB", by decide, byte 'B', by decide, by decide⟩
  have hnotDist : asBytes "aB:0" ∉ Distribution.digest := fun h =>
    absurd (hdist.mp h).2.2 (by decide)
  refine ⟨_, hd, ?_, fun h => ?_, hnotOci, hnotDist⟩
  · obtain ⟨himpOci, himpDist⟩ := hspans.compliance_iff
    have h1 := himpOci.mpr (by decide)
    have h2 := himpDist.mpr ⟨by decide, List.all_eq_true.mp (by decide)⟩
    change span.compliance = .universal
    cases hc : span.compliance with
    | universal => rfl
    | oci =>
      rw [hc] at h2
      cases h2
    | distribution =>
      rw [hc] at h1
      cases h1
  · exact h.some.elim hnotOci hnotDist

end Digest

end ContainerImageDistRef
