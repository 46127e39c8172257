import ContainerImageDistRef.Ambiguous.HostOrPath
import ContainerImageDistRef.Grammar

/-!
# The automaton of the segment scan

The packed state of the scan is read back as a shape: which of the two
readings has been ruled out, and what was read last. The packed setters
simulate the automaton of the shapes. Each shape has a language of the texts
that lead to it, one for the path reading and one for the host reading, and
the automaton reads every path component and every domain name to its end.
-/

namespace ContainerImageDistRef

open ByteString Grammar SeparatedList
open scoped Computability

namespace HostOrPath

/-- Which reading the bytes so far still allow. -/
inductive Flavor where
  | neutral
  | host
  | path
  deriving DecidableEq, Repr

/-- What was read last. -/
inductive Tail where
  | item
  | dot
  | dash
  | underscore
  | underscores
  deriving DecidableEq, Repr

structure Shape where
  flavor : Flavor
  tail : Tail
  deriving DecidableEq, Repr

def Flavor.bits : Flavor → UInt8
  | .neutral => 0
  | .host => Scan.HAS_UPPERCASE
  | .path => Scan.HAS_UNDERSCORE

def Tail.bits : Tail → UInt8
  | .item => 0
  | .dot => Scan.LAST_WAS_DOT
  | .dash => Scan.LAST_WAS_DASH
  | .underscore => 1
  | .underscores => 2

def Flavor.kind : Flavor → Kind
  | .neutral => .hostOrPath
  | .host => .host
  | .path => .path

namespace Shape

def encode (a : Shape) : Scan := ⟨a.flavor.bits ||| a.tail.bits⟩

def addUnderscore (a : Shape) : Outcome Err.Kind Shape :=
  match a.flavor, a.tail with
  | .host, _ | _, .underscores => .err .hostOrPathInvalidChar
  | _, .dot | _, .dash => .err .hostOrPathInvalidComponentEnd
  | _, .item => .ok ⟨.path, .underscore⟩
  | _, .underscore => .ok ⟨.path, .underscores⟩

def setDot (a : Shape) : Outcome Err.Kind Shape :=
  match a.tail with
  | .item => .ok ⟨a.flavor, .dot⟩
  | _ => .err .hostOrPathInvalidComponentEnd

def setDash (a : Shape) : Outcome Err.Kind Shape :=
  match a.tail with
  | .item | .dash => .ok ⟨a.flavor, .dash⟩
  | _ => .err .hostOrPathInvalidComponentEnd

def setUpper (a : Shape) : Outcome Err.Kind Shape :=
  match a.flavor with
  | .path => .err .hostOrPathInvalidChar
  | _ => .ok ⟨.host, .item⟩

/-- One byte of a segment. -/
def step (a : Shape) (c : UInt8) : Outcome Err.Kind Shape :=
  if isLowerAlnum c then .ok ⟨a.flavor, .item⟩
  else if isUpper c then a.setUpper
  else if c = byte '_' then a.addUnderscore
  else if c = byte '.' then a.setDot
  else if c = byte '-' then a.setDash
  else .err .hostOrPathInvalidChar

def run (a : Shape) (u : List UInt8) : Outcome Err.Kind Shape := u.foldlM step a

@[simp] theorem run_nil (a : Shape) : a.run [] = .ok a := rfl

theorem run_cons (a : Shape) (c : UInt8) (u : List UInt8) :
    a.run (c :: u) = a.step c >>= fun b => b.run u := by
  simp only [run, List.foldlM_cons]

theorem run_append (a : Shape) (u v : List UInt8) :
    a.run (u ++ v) = a.run u >>= fun b => b.run v := by
  simp only [run, List.foldlM_append]

theorem run_concat (a : Shape) (u : List UInt8) (c : UInt8) :
    a.run (u ++ [c]) = a.run u >>= fun b => b.step c := by
  rw [run_append]
  congr 1
  funext b
  rw [run_cons]
  cases b.step c <;> rfl

section Simulation

theorem encode_reset (a : Shape) : a.encode.reset = .ok (encode ⟨a.flavor, .item⟩) := by
  rcases a with ⟨f, t⟩
  cases f <;> cases t <;> rfl

theorem encode_setUpper (a : Shape) :
    a.encode.setUpper = a.setUpper >>= fun b => .ok b.encode := by
  rcases a with ⟨f, t⟩
  cases f <;> cases t <;> rfl

theorem encode_setDot (a : Shape) : a.encode.setDot = a.setDot >>= fun b => .ok b.encode := by
  rcases a with ⟨f, t⟩
  cases f <;> cases t <;> rfl

theorem encode_setDash (a : Shape) :
    a.encode.setDash = a.setDash >>= fun b => .ok b.encode := by
  rcases a with ⟨f, t⟩
  cases f <;> cases t <;> rfl

theorem encode_addUnderscore (a : Shape) :
    a.encode.addUnderscore = a.addUnderscore >>= fun b => .ok b.encode := by
  rcases a with ⟨f, t⟩
  cases f <;> cases t <;> rfl

theorem encode_kind {ε : Type} (a : Shape) :
    (Kind.ofScan a.encode : Outcome ε Kind) = .ok a.flavor.kind := by
  rcases a with ⟨f, t⟩
  cases f <;> cases t <;> rfl

theorem encode_end (a : Shape) :
    (!a.encode.lastWasDash && !a.encode.lastWasDot && a.encode.underscoreCount == 0) =
      (a.tail == .item) := by
  rcases a with ⟨f, t⟩
  cases f <;> cases t <;> rfl

end Simulation

/-- The texts that lead to a tail, read as a path component. -/
def pathTexts : Tail → Language UInt8
  | .item => pathComponent
  | .dot => pathComponent * char '.'
  | .dash => pathComponent * many1 (char '-')
  | .underscore => pathComponent * char '_'
  | .underscores => pathComponent * (char '_' * char '_')

/-- The texts that lead to a tail, read as a domain name. -/
def hostTexts : Tail → Language UInt8
  | .item => domainName
  | .dot => domainName * char '.'
  | .dash => domainName * many1 (char '-')
  | .underscore | .underscores => 0

/-- The bytes a shape accepts, and where they lead. -/
inductive Step (a : Shape) : UInt8 → Shape → Prop
  | lowerAlnum {c : UInt8} (h : isLowerAlnum c = true) : Step a c ⟨a.flavor, .item⟩
  | upper {c : UInt8} (h : isUpper c = true) (hf : a.flavor ≠ .path) : Step a c ⟨.host, .item⟩
  | underscore (hf : a.flavor ≠ .host) (ht : a.tail = .item) :
      Step a (byte '_') ⟨.path, .underscore⟩
  | underscores (hf : a.flavor ≠ .host) (ht : a.tail = .underscore) :
      Step a (byte '_') ⟨.path, .underscores⟩
  | dot (ht : a.tail = .item) : Step a (byte '.') ⟨a.flavor, .dot⟩
  | dash (ht : a.tail = .item ∨ a.tail = .dash) : Step a (byte '-') ⟨a.flavor, .dash⟩

/-- The bytes that a step tells apart. -/
inductive ByteClass : UInt8 → Prop
  | lowerAlnum {c : UInt8} (hc : isLowerAlnum c = true) : ByteClass c
  | upper {c : UInt8} (hc : isUpper c = true) : ByteClass c
  | underscore : ByteClass (byte '_')
  | dot : ByteClass (byte '.')
  | dash : ByteClass (byte '-')
  | foreign {c : UInt8} (hc : isAlnum c = false)
      (hsep : ¬(c = byte '.' ∨ c = byte '-' ∨ c = byte '_')) : ByteClass c

theorem byteClass (c : UInt8) : ByteClass c := by
  have hclass : ∀ c, isLowerAlnum c = false → isUpper c = false → isAlnum c = false :=
    forall_byte (by decide)
  by_cases hlower : isLowerAlnum c = true
  · exact .lowerAlnum hlower
  by_cases hupper : isUpper c = true
  · exact .upper hupper
  by_cases hsep : c = byte '.' ∨ c = byte '-' ∨ c = byte '_'
  · rcases hsep with rfl | rfl | rfl
    · exact .dot
    · exact .dash
    · exact .underscore
  · exact .foreign (hclass c (Bool.eq_false_iff.mpr hlower) (Bool.eq_false_iff.mpr hupper)) hsep

section Setters

variable {a b : Shape} {c : UInt8} {kind : Err.Kind}

theorem step_lowerAlnum (hc : isLowerAlnum c = true) : a.step c = .ok ⟨a.flavor, .item⟩ :=
  if_pos hc

theorem step_upper (hc : isUpper c = true) : a.step c = a.setUpper := by
  have hclass : ∀ c, isUpper c = true → isLowerAlnum c = false := forall_byte (by decide)
  rw [step, if_neg (Bool.eq_false_iff.mp (hclass c hc)), if_pos hc]

theorem step_underscore : a.step (byte '_') = a.addUnderscore := rfl

theorem step_dot : a.step (byte '.') = a.setDot := rfl

theorem step_dash : a.step (byte '-') = a.setDash := rfl

theorem step_foreign (hc : isAlnum c = false)
    (hsep : ¬(c = byte '.' ∨ c = byte '-' ∨ c = byte '_')) :
    a.step c = .err .hostOrPathInvalidChar := by
  have hclass : ∀ c, isAlnum c = false → isLowerAlnum c = false ∧ isUpper c = false :=
    forall_byte (by decide)
  obtain ⟨hlower, hupper⟩ := hclass c hc
  simp only [not_or] at hsep
  simp [step, hlower, hupper, hsep]

theorem setUpper_eq_ok : a.setUpper = .ok b ↔ a.flavor ≠ .path ∧ b = ⟨.host, .item⟩ := by
  rcases a with ⟨f, t⟩
  cases f <;> simp [setUpper, eq_comm]

theorem setUpper_eq_err :
    a.setUpper = .err kind ↔ a.flavor = .path ∧ kind = .hostOrPathInvalidChar := by
  rcases a with ⟨f, t⟩
  cases f <;> simp [setUpper, eq_comm]

theorem addUnderscore_eq_ok : a.addUnderscore = .ok b ↔
    a.flavor ≠ .host ∧ (a.tail = .item ∧ b = ⟨.path, .underscore⟩ ∨
      a.tail = .underscore ∧ b = ⟨.path, .underscores⟩) := by
  rcases a with ⟨f, t⟩
  cases f <;> cases t <;> simp [addUnderscore, eq_comm]

theorem addUnderscore_eq_err : a.addUnderscore = .err kind ↔
    (a.flavor = .host ∨ a.tail = .underscores) ∧ kind = .hostOrPathInvalidChar ∨
      a.flavor ≠ .host ∧ (a.tail = .dot ∨ a.tail = .dash) ∧
        kind = .hostOrPathInvalidComponentEnd := by
  rcases a with ⟨f, t⟩
  cases f <;> cases t <;> simp [addUnderscore, eq_comm]

theorem setDot_eq_ok : a.setDot = .ok b ↔ a.tail = .item ∧ b = ⟨a.flavor, .dot⟩ := by
  rcases a with ⟨f, t⟩
  cases t <;> simp [setDot, eq_comm]

theorem setDot_eq_err : a.setDot = .err kind ↔
    (a.tail = .dot ∨ a.tail = .dash ∨ a.tail = .underscore ∨ a.tail = .underscores) ∧
      kind = .hostOrPathInvalidComponentEnd := by
  rcases a with ⟨f, t⟩
  cases t <;> simp [setDot, eq_comm]

theorem setDash_eq_ok :
    a.setDash = .ok b ↔ (a.tail = .item ∨ a.tail = .dash) ∧ b = ⟨a.flavor, .dash⟩ := by
  rcases a with ⟨f, t⟩
  cases t <;> simp [setDash, eq_comm]

theorem setDash_eq_err : a.setDash = .err kind ↔
    (a.tail = .dot ∨ a.tail = .underscore ∨ a.tail = .underscores) ∧
      kind = .hostOrPathInvalidComponentEnd := by
  rcases a with ⟨f, t⟩
  cases t <;> simp [setDash, eq_comm]

theorem step_eq_ok : a.step c = .ok b ↔ Step a c b := by
  constructor
  · intro h
    cases byteClass c with
    | lowerAlnum hc =>
      rw [step_lowerAlnum hc] at h
      cases h
      exact .lowerAlnum hc
    | upper hc =>
      rw [step_upper hc] at h
      obtain ⟨hf, rfl⟩ := setUpper_eq_ok.mp h
      exact .upper hc hf
    | underscore =>
      obtain ⟨hf, ⟨ht, rfl⟩ | ⟨ht, rfl⟩⟩ := addUnderscore_eq_ok.mp (step_underscore.symm.trans h)
      · exact .underscore hf ht
      · exact .underscores hf ht
    | dot =>
      obtain ⟨ht, rfl⟩ := setDot_eq_ok.mp (step_dot.symm.trans h)
      exact .dot ht
    | dash =>
      obtain ⟨ht, rfl⟩ := setDash_eq_ok.mp (step_dash.symm.trans h)
      exact .dash ht
    | foreign hc hsep =>
      rw [step_foreign hc hsep] at h
      cases h
  · intro h
    cases h with
    | lowerAlnum hc => exact step_lowerAlnum hc
    | upper hc hf => exact (step_upper hc).trans (setUpper_eq_ok.mpr ⟨hf, rfl⟩)
    | underscore hf ht =>
      exact step_underscore.trans (addUnderscore_eq_ok.mpr ⟨hf, Or.inl ⟨ht, rfl⟩⟩)
    | underscores hf ht =>
      exact step_underscore.trans (addUnderscore_eq_ok.mpr ⟨hf, Or.inr ⟨ht, rfl⟩⟩)
    | dot ht => exact step_dot.trans (setDot_eq_ok.mpr ⟨ht, rfl⟩)
    | dash ht => exact step_dash.trans (setDash_eq_ok.mpr ⟨ht, rfl⟩)

theorem step_ne_panic (a : Shape) (c : UInt8) (p : PanicCause) : a.step c ≠ .panic p := by
  rcases a with ⟨f, t⟩
  cases byteClass c with
  | lowerAlnum hc => simp [step_lowerAlnum hc]
  | upper hc =>
    rw [step_upper hc]
    cases f <;> simp [setUpper]
  | underscore =>
    rw [step_underscore]
    cases f <;> cases t <;> simp [addUnderscore]
  | dot =>
    rw [step_dot]
    cases t <;> simp [setDot]
  | dash =>
    rw [step_dash]
    cases t <;> simp [setDash]
  | foreign hc hsep => simp [step_foreign hc hsep]

end Setters

theorem mem_pathTexts_of_ne_item {t : Tail} {u : List UInt8} (ht : t ≠ .item)
    (h : u ∈ pathTexts t) : ∃ w x, w ∈ pathComponent ∧ x ∈ separator ∧ w ++ x = u := by
  have hsep : ∀ L : Language UInt8, L ≤ separator → u ∈ pathComponent * L →
      ∃ w x, w ∈ pathComponent ∧ x ∈ separator ∧ w ++ x = u := by
    intro L hL hu
    obtain ⟨w, hw, x, hx, rfl⟩ := Language.mem_mul.mp hu
    exact ⟨w, x, hw, hL hx, rfl⟩
  cases t with
  | item => exact absurd rfl ht
  | dot =>
    refine hsep _ (fun x hx => Or.inl (Or.inl ?_)) h
    exact ⟨byte '.', by decide, mem_char.mp hx⟩
  | dash => exact hsep _ (fun x hx => Or.inr hx) h
  | underscore =>
    refine hsep _ (fun x hx => Or.inl (Or.inl ?_)) h
    exact ⟨byte '_', by decide, mem_char.mp hx⟩
  | underscores => exact hsep _ (fun x hx => Or.inl (Or.inr hx)) h

theorem pathTexts_lowerAlnum {t : Tail} {u : List UInt8} {c : UInt8} (h : u ∈ pathTexts t)
    (hc : isLowerAlnum c = true) : u ++ [c] ∈ pathComponent := by
  by_cases ht : t = .item
  · subst ht
    exact sepBy_extend (fun x hx => many1_append hx (singleton_mem_symbol.mpr hc)) h
  · obtain ⟨w, x, hw, hx, rfl⟩ := mem_pathTexts_of_ne_item ht h
    exact sepBy_append hw hx (mem_many1_of_mem (singleton_mem_symbol.mpr hc))

theorem hostTexts_alnum {t : Tail} {u : List UInt8} {c : UInt8} (h : u ∈ hostTexts t)
    (hc : isAlnum c = true) : u ++ [c] ∈ domainName := by
  cases t with
  | item => exact sepBy_extend (fun x hx => domainComponent_snoc hx [] (by simp) hc) h
  | dot =>
    obtain ⟨w, hw, x, hx, rfl⟩ := Language.mem_mul.mp h
    exact sepBy_append hw hx (Or.inl (singleton_mem_symbol.mpr hc))
  | dash =>
    obtain ⟨w, hw, ds, hds, rfl⟩ := Language.mem_mul.mp h
    have hdash : ∀ d ∈ ds, d = byte '-' := fun d hd => by
      simpa using (mem_many1_symbol.mp hds).2 d hd
    rw [List.append_assoc]
    exact sepBy_extend (fun x hx => domainComponent_snoc hx _ hdash hc) hw
  | underscore => exact False.elim h
  | underscores => exact False.elim h

theorem mem_mul_dashes {L : Language UInt8} {t : Tail} {texts : Tail → Language UInt8}
    {u : List UInt8} (hitem : texts .item = L) (hdash : texts .dash = L * many1 (char '-'))
    (ht : t = .item ∨ t = .dash) (h : u ∈ texts t) :
    u ++ [byte '-'] ∈ L * many1 (char '-') := by
  have hchar : [byte '-'] ∈ char '-' := mem_char.mpr rfl
  rcases ht with rfl | rfl
  · rw [hitem] at h
    exact Language.append_mem_mul h (mem_many1_of_mem hchar)
  · rw [hdash] at h
    obtain ⟨w, hw, ds, hds, rfl⟩ := Language.mem_mul.mp h
    rw [List.append_assoc]
    exact Language.append_mem_mul hw (many1_append hds hchar)

/-- A byte that does not rule out the path reading keeps it. -/
theorem pathTexts_of_step {a b : Shape} {c : UInt8} {u : List UInt8} (h : Step a c b)
    (hb : b.flavor ≠ .host) (hu : a.flavor ≠ .host → u ∈ pathTexts a.tail) :
    u ++ [c] ∈ pathTexts b.tail := by
  cases h with
  | lowerAlnum h => exact pathTexts_lowerAlnum (hu hb) h
  | upper h hf => exact absurd rfl hb
  | underscore hf ht =>
    have hu' : u ∈ pathTexts .item := ht ▸ hu hf
    exact Language.append_mem_mul hu' (mem_char.mpr rfl)
  | underscores hf ht =>
    have hu' : u ∈ pathTexts .underscore := ht ▸ hu hf
    obtain ⟨w, hw, x, hx, rfl⟩ := Language.mem_mul.mp hu'
    rw [List.append_assoc]
    exact Language.append_mem_mul hw (Language.append_mem_mul hx (mem_char.mpr rfl))
  | dot ht =>
    have hu' : u ∈ pathTexts .item := ht ▸ hu hb
    exact Language.append_mem_mul hu' (mem_char.mpr rfl)
  | dash ht => exact mem_mul_dashes rfl rfl ht (hu hb)

/-- A byte that does not rule out the host reading keeps it. -/
theorem hostTexts_of_step {a b : Shape} {c : UInt8} {u : List UInt8} (h : Step a c b)
    (hb : b.flavor ≠ .path) (hu : a.flavor ≠ .path → u ∈ hostTexts a.tail) :
    u ++ [c] ∈ hostTexts b.tail := by
  cases h with
  | lowerAlnum h => exact hostTexts_alnum (hu hb) (isAlnum_of_isLowerAlnum c h)
  | upper h hf =>
    apply hostTexts_alnum (hu hf)
    simp [isAlnum, h]
  | underscore hf ht => exact absurd rfl hb
  | underscores hf ht => exact absurd rfl hb
  | dot ht =>
    have hu' : u ∈ hostTexts .item := ht ▸ hu hb
    exact Language.append_mem_mul hu' (mem_char.mpr rfl)
  | dash ht => exact mem_mul_dashes rfl rfl ht (hu hb)

/-- What the text `u` read from the flavor `f` is in the shape `a`. -/
structure Describes (f : Flavor) (u : List UInt8) (a : Shape) : Prop where
  path : a.flavor ≠ .host → u ∈ pathTexts a.tail
  host : a.flavor ≠ .path → u ∈ hostTexts a.tail
  sticky : f ≠ .neutral → a.flavor = f

theorem Describes.concat {f : Flavor} {u : List UInt8} {a b : Shape} {c : UInt8}
    (h : Describes f u a) (hc : Step a c b) : Describes f (u ++ [c]) b where
  path hb := pathTexts_of_step hc hb h.path
  host hb := hostTexts_of_step hc hb h.host
  sticky hf := by
    have ha := h.sticky hf
    cases hc with
    | lowerAlnum h => exact ha
    | upper h hp => cases f <;> simp_all
    | underscore hh ht => cases f <;> simp_all
    | underscores hh ht => cases f <;> simp_all
    | dot ht => exact ha
    | dash ht => exact ha

/-- The first byte is a letter or a digit. -/
theorem describes_first {f : Flavor} {b : Shape} {c : UInt8} (h : Step ⟨f, .item⟩ c b)
    (hc : ¬(c = byte '.' ∨ c = byte '-' ∨ c = byte '_')) : Describes f [c] b := by
  cases h with
  | lowerAlnum h =>
    exact ⟨fun _ => symbol_mem_pathComponent h,
      fun _ => symbol_mem_domainName (isAlnum_of_isLowerAlnum c h), fun _ => rfl⟩
  | upper h hf =>
    exact ⟨fun hb => absurd rfl hb, fun _ => symbol_mem_domainName (by simp [isAlnum, h]),
      fun hn => by cases f <;> simp_all⟩
  | underscore hf ht => simp at hc
  | underscores hf ht => cases ht
  | dot ht => simp at hc
  | dash ht => simp at hc

/-- Soundness of the automaton: every text it reads is described by its shape. -/
theorem describes_of_run {f : Flavor} {u : List UInt8} {a : Shape}
    (h : run ⟨f, .item⟩ u = .ok a) (hne : u ≠ [])
    (hc : ∀ c, u.head? = some c → ¬(c = byte '.' ∨ c = byte '-' ∨ c = byte '_')) :
    Describes f u a := by
  induction u using List.reverseRecOn generalizing a with
  | nil => exact absurd rfl hne
  | append_singleton u c ih =>
    rw [run_concat] at h
    obtain ⟨b, hb, hstep⟩ := Outcome.bind_eq_ok.mp h
    rw [step_eq_ok] at hstep
    cases u with
    | nil =>
      cases hb
      exact describes_first hstep (hc c rfl)
    | cons d u => exact (ih hb (by simp) hc).concat hstep

theorem run_lowerAlnum {u : List UInt8} (a : Shape) (hne : u ≠ [])
    (h : ∀ c ∈ u, isLowerAlnum c = true) : a.run u = .ok ⟨a.flavor, .item⟩ := by
  induction u generalizing a with
  | nil => exact absurd rfl hne
  | cons c u ih =>
    have hc : a.step c = .ok ⟨a.flavor, .item⟩ := step_eq_ok.mpr (.lowerAlnum (h c (by simp)))
    rw [run_cons, hc, Outcome.ok_bind]
    cases u with
    | nil => rfl
    | cons d u => exact ih _ (by simp) fun e he => h e (List.mem_cons_of_mem c he)

theorem run_dashes {u : List UInt8} {a : Shape} (ht : a.tail = .item ∨ a.tail = .dash)
    (hne : u ≠ []) (h : ∀ c ∈ u, c = byte '-') : a.run u = .ok ⟨a.flavor, .dash⟩ := by
  induction u generalizing a with
  | nil => exact absurd rfl hne
  | cons c u ih =>
    obtain rfl := h c (by simp)
    rw [run_cons, step_eq_ok.mpr (.dash ht), Outcome.ok_bind]
    cases u with
    | nil => rfl
    | cons d u => exact ih (Or.inr rfl) (by simp) fun e he => h e (List.mem_cons_of_mem _ he)

theorem run_separator {f : Flavor} {u : List UInt8} (hf : f ≠ .host) (h : u ∈ separator) :
    ∃ b : Shape, b.flavor ≠ .host ∧ run ⟨f, .item⟩ u = .ok b := by
  rcases h with (⟨c, hc, rfl⟩ | h) | h
  · rcases (Bool.or_eq_true _ _).mp hc with hc | hc
    · obtain rfl := eq_of_beq hc
      exact ⟨⟨.path, .underscore⟩, by simp, by
        rw [run_cons, step_eq_ok.mpr (.underscore hf rfl)]; rfl⟩
    · obtain rfl := eq_of_beq hc
      exact ⟨⟨f, .dot⟩, hf, by rw [run_cons, step_eq_ok.mpr (.dot rfl)]; rfl⟩
  · obtain ⟨x, hx, y, hy, rfl⟩ := Language.mem_mul.mp h
    obtain rfl := mem_char.mp hx
    obtain rfl := mem_char.mp hy
    refine ⟨⟨.path, .underscores⟩, by simp, ?_⟩
    rw [List.singleton_append, run_cons, step_eq_ok.mpr (.underscore hf rfl), Outcome.ok_bind,
      run_cons, step_eq_ok.mpr (.underscores (by simp) rfl)]
    rfl
  · obtain ⟨hne, hall⟩ := mem_many1_symbol.mp h
    exact ⟨⟨f, .dash⟩, hf, run_dashes (Or.inl rfl) hne fun c hc => by simpa using hall c hc⟩

/-- Completeness for path components. -/
theorem run_pathComponent {f : Flavor} {u : List UInt8} (hf : f ≠ .host)
    (h : u ∈ pathComponent) : ∃ g, g ≠ .host ∧ run ⟨f, .item⟩ u = .ok ⟨g, .item⟩ := by
  induction h using sepBy_induction with
  | single x hx =>
    obtain ⟨hne, hall⟩ := mem_many1_symbol.mp hx
    exact ⟨f, hf, run_lowerAlnum _ hne hall⟩
  | snoc w s x _ hs hx ih =>
    obtain ⟨g, hg, hw⟩ := ih
    obtain ⟨b, hb, hrun⟩ := run_separator hg hs
    obtain ⟨hne, hall⟩ := mem_many1_symbol.mp hx
    refine ⟨b.flavor, hb, ?_⟩
    rw [run_append, run_append, hw, Outcome.ok_bind, hrun, Outcome.ok_bind]
    exact run_lowerAlnum b hne hall

theorem step_alnum {a : Shape} {c : UInt8} (hf : a.flavor ≠ .path) (hc : isAlnum c = true) :
    ∃ g, g ≠ .path ∧ a.step c = .ok ⟨g, .item⟩ := by
  by_cases hl : isLowerAlnum c = true
  · exact ⟨a.flavor, hf, step_eq_ok.mpr (.lowerAlnum hl)⟩
  · have hu : isUpper c = true := by
      simp only [isAlnum, isLowerAlnum, Bool.or_eq_true] at hc hl
      tauto
    exact ⟨.host, by simp, step_eq_ok.mpr (.upper hu hf)⟩

theorem run_alnumDash {u : List UInt8} {a : Shape} (hf : a.flavor ≠ .path)
    (ht : a.tail = .item ∨ a.tail = .dash) (h : ∀ c ∈ u, isAlnumDash c = true) :
    ∃ b, b.flavor ≠ .path ∧ (b.tail = .item ∨ b.tail = .dash) ∧ a.run u = .ok b := by
  induction u generalizing a with
  | nil => exact ⟨a, hf, ht, rfl⟩
  | cons c u ih =>
    have hu : ∀ d ∈ u, isAlnumDash d = true := fun d hd => h d (List.mem_cons_of_mem c hd)
    rcases (Bool.or_eq_true _ _).mp (h c (by simp)) with hc | hc
    · obtain ⟨g, hg, hstep⟩ := step_alnum hf hc
      obtain ⟨b, hb, hbt, hrun⟩ := ih (a := ⟨g, .item⟩) hg (Or.inl rfl) hu
      exact ⟨b, hb, hbt, by rw [run_cons, hstep, Outcome.ok_bind, hrun]⟩
    · obtain rfl := eq_of_beq hc
      obtain ⟨b, hb, hbt, hrun⟩ := ih (a := ⟨a.flavor, .dash⟩) hf (Or.inr rfl) hu
      exact ⟨b, hb, hbt, by rw [run_cons, step_eq_ok.mpr (.dash ht), Outcome.ok_bind, hrun]⟩

theorem run_domainComponent {u : List UInt8} {a : Shape} (hf : a.flavor ≠ .path)
    (h : u ∈ domainComponent) : ∃ g, g ≠ .path ∧ a.run u = .ok ⟨g, .item⟩ := by
  rcases h with ⟨c, hc, rfl⟩ | h
  · obtain ⟨g, hg, hstep⟩ := step_alnum hf hc
    exact ⟨g, hg, by rw [run_cons, hstep]; rfl⟩
  · obtain ⟨w, hw, _, ⟨d, hd, rfl⟩, rfl⟩ := Language.mem_mul.mp h
    obtain ⟨_, ⟨c, hc, rfl⟩, m, hm, rfl⟩ := Language.mem_mul.mp hw
    obtain ⟨g, hg, hstep⟩ := step_alnum hf hc
    obtain ⟨b, hb, -, hrun⟩ :=
      run_alnumDash (a := ⟨g, .item⟩) hg (Or.inl rfl) (mem_kstar_symbol.mp hm)
    obtain ⟨k, hk, hlast⟩ := step_alnum hb hd
    refine ⟨k, hk, ?_⟩
    rw [run_concat, List.singleton_append, run_cons, hstep, Outcome.ok_bind, hrun,
      Outcome.ok_bind, hlast]

/-- Completeness for domain names. -/
theorem run_domainName {f : Flavor} {u : List UInt8} (hf : f ≠ .path) (h : u ∈ domainName) :
    ∃ g, g ≠ .path ∧ run ⟨f, .item⟩ u = .ok ⟨g, .item⟩ := by
  induction h using sepBy_induction with
  | single x hx => exact run_domainComponent hf hx
  | snoc w s x _ hs hx ih =>
    obtain ⟨g, hg, hw⟩ := ih
    obtain rfl := mem_char.mp hs
    obtain ⟨k, hk, hrun⟩ := run_domainComponent (a := ⟨g, .dot⟩) hg hx
    refine ⟨k, hk, ?_⟩
    rw [run_append, run_append, hw, Outcome.ok_bind, run_cons, step_eq_ok.mpr (.dot rfl),
      Outcome.ok_bind, run_nil, Outcome.ok_bind, hrun]

/-- An underscore decides for a path and an uppercase letter for a host. -/
theorem flavor_of_run {u : List UInt8} {a : Shape} (h : run ⟨.neutral, .item⟩ u = .ok a) :
    (a.flavor = .path ↔ byte '_' ∈ u) ∧ (a.flavor = .host ↔ ∃ c ∈ u, isUpper c = true) := by
  induction u using List.reverseRecOn generalizing a with
  | nil =>
    cases h
    simp
  | append_singleton u c ih =>
    rw [run_concat] at h
    obtain ⟨b, hb, hstep⟩ := Outcome.bind_eq_ok.mp h
    rw [step_eq_ok] at hstep
    obtain ⟨hpath, hhost⟩ := ih hb
    have hlower : ∀ c, isLowerAlnum c = true → c ≠ byte '_' ∧ isUpper c = false :=
      forall_byte (by decide)
    have hupper : ∀ c, isUpper c = true → c ≠ byte '_' := forall_byte (by decide)
    have hmarks : isUpper (byte '_') = false ∧ isUpper (byte '.') = false ∧
        isUpper (byte '-') = false ∧ byte '_' ≠ byte '.' ∧ byte '_' ≠ byte '-' := by decide
    simp only [List.mem_append, List.mem_singleton, or_and_right, exists_or, exists_eq_left]
    cases hstep with
    | lowerAlnum hc => simp [hpath, hhost, (hlower c hc).1.symm, (hlower c hc).2]
    | upper hc hf =>
      rw [Ne, hpath] at hf
      simp [hf, hc, (hupper c hc).symm]
    | underscore hf ht =>
      rw [Ne, hhost] at hf
      simp [hf, hmarks]
    | underscores hf ht =>
      rw [Ne, hhost] at hf
      simp [hf, hmarks]
    | dot ht => simp [hpath, hhost, hmarks]
    | dash ht => simp [hpath, hhost, hmarks]

end Shape

end HostOrPath

end ContainerImageDistRef
