import ContainerImageDistRef.Ambiguous.Segment
import ContainerImageDistRef.Library.Groups

/-!
# What the flags of the segment scan mean

In every turn of the loop the flags in the packed byte are what they are named
after: they say how the text read so far ends and which reading it has ruled
out. The next byte is refused for that text alone.
-/

namespace ContainerImageDistRef

open ByteString Grammar Groups

namespace HostOrPath

/-- The packed byte, unpacked. -/
structure DebugScan where
  hasUpper : Bool
  lastWasDot : Bool
  lastWasDash : Bool
  underscoreCount : UInt8
  hasUnderscore : Bool
  deriving DecidableEq, Repr

/-- `From<&Scan> for DebugScan` -/
def DebugScan.ofScan (scan : Scan) : DebugScan :=
  { hasUpper := scan.hasUpper
    lastWasDot := scan.lastWasDot
    lastWasDash := scan.lastWasDash
    underscoreCount := scan.underscoreCount
    hasUnderscore := scan.hasUnderscore }

/-- The loop of the scan over `bytes`, as it stands after some of them: with its state and the
bytes not yet read. -/
inductive Looping (kind : Kind) (bytes : List UInt8) :
    List UInt8 → State → List UInt8 → Prop
  | start : Looping kind bytes [] (HostOrPathSpan.init kind) bytes
  | turn {w todo : List UInt8} {s t : State} {c : UInt8} (h : Looping kind bytes w s (c :: todo))
      (hc : isStop c = false) (ht : (s.update c >>= State.advance) = .ok t) :
      Looping kind bytes (w ++ [c]) t todo

def isUnderscore (c : UInt8) : Bool := c == byte '_'

/-- The path reading is ruled out by an uppercase letter, or from the start. -/
def Hosted (f : Flavor) (w : List UInt8) : Prop := f = .host ∨ ∃ c ∈ w, isUpper c = true

/-- The host reading is ruled out by an underscore, or from the start. -/
def Pathed (f : Flavor) (w : List UInt8) : Prop := f = .path ∨ byte '_' ∈ w

/-- What the unpacked flags say of the text `w`. -/
structure DebugScan.Means (f : Flavor) (w : List UInt8) (d : DebugScan) : Prop where
  hasUpper : d.hasUpper = true ↔ Hosted f w
  hasUnderscore : d.hasUnderscore = true ↔ Pathed f w
  apart : ¬(Hosted f w ∧ Pathed f w)
  lastWasDot : d.lastWasDot = true ↔ w.getLast? = some (byte '.')
  lastWasDash : d.lastWasDash = true ↔ w.getLast? = some (byte '-')
  underscoreCount : d.underscoreCount.toNat = trailing isUnderscore w
  underscoreCount_le : d.underscoreCount.toNat ≤ 2

/-- Why the byte `c` cannot follow the text `w`. -/
inductive Refused (f : Flavor) (w : List UInt8) : UInt8 → Err.Kind → Prop
  | foreign {c : UInt8} (hc : isAlnum c = false)
      (hsep : ¬(c = byte '.' ∨ c = byte '-' ∨ c = byte '_')) : Refused f w c .hostOrPathInvalidChar
  | upper {c : UInt8} (hc : isUpper c = true) (h : Pathed f w) :
      Refused f w c .hostOrPathInvalidChar
  | underscore (h : Hosted f w) : Refused f w (byte '_') .hostOrPathInvalidChar
  | third (hhost : ¬Hosted f w) (h : trailing isUnderscore w = 2) :
      Refused f w (byte '_') .hostOrPathInvalidChar
  | joined (hhost : ¬Hosted f w)
      (h : w.getLast? = some (byte '.') ∨ w.getLast? = some (byte '-')) :
      Refused f w (byte '_') .hostOrPathInvalidComponentEnd
  | dash (h : w.getLast? = some (byte '.') ∨ w.getLast? = some (byte '_')) :
      Refused f w (byte '-') .hostOrPathInvalidComponentEnd
  | dot (h : w.getLast? = some (byte '.') ∨ w.getLast? = some (byte '-') ∨
      w.getLast? = some (byte '_')) : Refused f w (byte '.') .hostOrPathInvalidComponentEnd

def Tail.underscoreCount : Tail → Nat
  | .underscore => 1
  | .underscores => 2
  | .item | .dot | .dash => 0

/-- What a shape says of the text `w`. -/
structure Shape.Means (f : Flavor) (w : List UInt8) (a : Shape) : Prop where
  host : a.flavor = .host ↔ Hosted f w
  path : a.flavor = .path ↔ Pathed f w
  dot : a.tail = .dot ↔ w.getLast? = some (byte '.')
  dash : a.tail = .dash ↔ w.getLast? = some (byte '-')
  underscores : a.tail.underscoreCount = trailing isUnderscore w

namespace Shape

variable {f : Flavor} {w : List UInt8} {a b : Shape} {c : UInt8}

theorem hosted_concat : Hosted f (w ++ [c]) ↔ Hosted f w ∨ isUpper c = true := by
  simp only [Hosted, List.mem_append, List.mem_singleton, or_and_right, exists_or,
    exists_eq_left, or_assoc]

theorem pathed_concat : Pathed f (w ++ [c]) ↔ Pathed f w ∨ c = byte '_' := by
  simp only [Pathed, List.mem_append, List.mem_singleton, or_assoc, eq_comm]

theorem means_start (f : Flavor) : Means f [] ⟨f, .item⟩ := by
  constructor <;> simp [Hosted, Pathed, Tail.underscoreCount]

/-- One step of the automaton keeps its meaning. -/
theorem Means.step (h : Means f w a) (hc : Step a c b) : Means f (w ++ [c]) b := by
  have hlower : ∀ c, isLowerAlnum c = true → isUpper c = false ∧ isUnderscore c = false ∧
      c ≠ byte '.' ∧ c ≠ byte '-' ∧ c ≠ byte '_' := forall_byte (by decide)
  have hupper : ∀ c, isUpper c = true → isUnderscore c = false ∧ c ≠ byte '.' ∧
      c ≠ byte '-' ∧ c ≠ byte '_' := forall_byte (by decide)
  have hmarks : isUpper (byte '.') = false ∧ isUpper (byte '-') = false ∧
      isUpper (byte '_') = false ∧ isUnderscore (byte '.') = false ∧
      isUnderscore (byte '-') = false ∧ isUnderscore (byte '_') = true ∧
      byte '.' ≠ byte '-' ∧ byte '-' ≠ byte '.' ∧ byte '_' ≠ byte '.' ∧ byte '_' ≠ byte '-' ∧
      byte '.' ≠ byte '_' ∧ byte '-' ≠ byte '_' := by
    decide
  have hcount := h.underscores
  cases hc with
  | lowerAlnum hc =>
    have hclass := hlower c hc
    constructor <;> simp [hosted_concat, pathed_concat, h.host, h.path, hclass,
      Tail.underscoreCount]
  | upper hc hf =>
    have hclass := hupper c hc
    rw [Ne, h.path] at hf
    constructor <;> simp [hosted_concat, pathed_concat, hf, hc, hclass, Tail.underscoreCount]
  | underscore hf ht =>
    rw [Ne, h.host] at hf
    rw [ht] at hcount
    constructor <;> simp [hosted_concat, pathed_concat, hf, hmarks, ← hcount,
      Tail.underscoreCount]
  | underscores hf ht =>
    rw [Ne, h.host] at hf
    rw [ht] at hcount
    constructor <;> simp [hosted_concat, pathed_concat, hf, hmarks, ← hcount,
      Tail.underscoreCount]
  | dot ht =>
    constructor <;> simp [hosted_concat, pathed_concat, h.host, h.path, hmarks,
      Tail.underscoreCount]
  | dash ht =>
    constructor <;> simp [hosted_concat, pathed_concat, h.host, h.path, hmarks,
      Tail.underscoreCount]

theorem means_of_run {w : List UInt8} {a : Shape} (h : run ⟨f, .item⟩ w = .ok a) :
    Means f w a := by
  induction w using List.reverseRecOn generalizing a with
  | nil =>
    obtain rfl := Outcome.ok.inj h
    exact means_start f
  | append_singleton w c ih =>
    rw [run_concat] at h
    obtain ⟨b, hb, hstep⟩ := Outcome.bind_eq_ok.mp h
    exact (ih hb).step (step_eq_ok.mp hstep)

theorem Means.underscore_iff (h : Means f w a) :
    a.tail = .underscore ∨ a.tail = .underscores ↔ w.getLast? = some (byte '_') := by
  have hzero : trailing isUnderscore w = 0 ↔ ¬w.getLast? = some (byte '_') := by
    rw [trailing_eq_zero]
    constructor
    · intro hall hlast
      cases hall _ hlast
    · intro hlast c hc
      rw [isUnderscore, beq_eq_false_iff_ne]
      rintro rfl
      exact hlast hc
  rw [← h.underscores] at hzero
  rw [← not_iff_not, ← hzero]
  cases a.tail <;> simp [Tail.underscoreCount]

/-- An error of a step tells what the byte and the text before it are. -/
theorem Means.refused {kind : Err.Kind} (h : Means f w a) (herr : a.step c = .err kind) :
    Refused f w c kind := by
  have hline := h.underscore_iff
  cases byteClass c with
  | lowerAlnum hc =>
    rw [step_lowerAlnum hc] at herr
    cases herr
  | upper hc =>
    rw [step_upper hc] at herr
    obtain ⟨hpath, rfl⟩ := setUpper_eq_err.mp herr
    exact .upper hc (h.path.mp hpath)
  | underscore =>
    -- the setter looks at the host reading before the end of the text
    by_cases hhost : Hosted f w
    · obtain ⟨-, rfl⟩ | ⟨hnot, -⟩ := addUnderscore_eq_err.mp (step_underscore.symm.trans herr)
      · exact .underscore hhost
      · exact absurd (h.host.mpr hhost) hnot
    · rcases addUnderscore_eq_err.mp (step_underscore.symm.trans herr) with
        ⟨hf | htwo, rfl⟩ | ⟨-, hlast, rfl⟩
      · exact absurd (h.host.mp hf) hhost
      · have hcount := h.underscores
        rw [htwo] at hcount
        exact .third hhost hcount.symm
      · exact .joined hhost (hlast.imp h.dot.mp h.dash.mp)
  | dot =>
    obtain ⟨hlast, rfl⟩ := setDot_eq_err.mp (step_dot.symm.trans herr)
    rw [hline, h.dot, h.dash] at hlast
    exact .dot hlast
  | dash =>
    obtain ⟨hlast, rfl⟩ := setDash_eq_err.mp (step_dash.symm.trans herr)
    rw [hline, h.dot] at hlast
    exact .dash hlast
  | foreign hc hsep =>
    rw [step_foreign hc hsep] at herr
    cases herr
    exact .foreign hc hsep

/-- What the text before a byte refuses is an error of the step. -/
theorem Means.step_of_refused {kind : Err.Kind} (h : Means f w a) (hc : Refused f w c kind) :
    a.step c = .err kind := by
  have hline := h.underscore_iff
  cases hc with
  | foreign hc hsep => exact step_foreign hc hsep
  | upper hc hpath =>
    rw [step_upper hc, setUpper_eq_err]
    exact ⟨h.path.mpr hpath, rfl⟩
  | underscore hhost =>
    rw [step_underscore, addUnderscore_eq_err]
    exact Or.inl ⟨Or.inl (h.host.mpr hhost), rfl⟩
  | third hhost htwo =>
    have htail : a.tail = .underscores := by
      have hcount := h.underscores
      rw [htwo] at hcount
      revert hcount
      cases a.tail <;> simp [Tail.underscoreCount]
    rw [step_underscore, addUnderscore_eq_err]
    exact Or.inl ⟨Or.inr htail, rfl⟩
  | joined hhost hlast =>
    rw [step_underscore, addUnderscore_eq_err]
    exact Or.inr ⟨mt h.host.mp hhost, hlast.imp h.dot.mpr h.dash.mpr, rfl⟩
  | dash hlast =>
    rw [step_dash, setDash_eq_err, hline, h.dot]
    exact ⟨hlast, rfl⟩
  | dot hlast =>
    rw [step_dot, setDot_eq_err, hline, h.dot, h.dash]
    exact ⟨hlast, rfl⟩

theorem Means.step_eq_err {kind : Err.Kind} (h : Means f w a) :
    a.step c = .err kind ↔ Refused f w c kind :=
  ⟨h.refused, h.step_of_refused⟩

/-- The flags of the packed byte. -/
theorem Means.debugScan (h : Means f w a) : DebugScan.Means f w (.ofScan a.encode) := by
  have hupper : a.encode.hasUpper = true ↔ a.flavor = .host := by
    rcases a with ⟨g, t⟩
    cases g <;> cases t <;> decide
  have hunder : a.encode.hasUnderscore = true ↔ a.flavor = .path := by
    rcases a with ⟨g, t⟩
    cases g <;> cases t <;> decide
  have hdot : a.encode.lastWasDot = true ↔ a.tail = .dot := by
    rcases a with ⟨g, t⟩
    cases g <;> cases t <;> decide
  have hdash : a.encode.lastWasDash = true ↔ a.tail = .dash := by
    rcases a with ⟨g, t⟩
    cases g <;> cases t <;> decide
  have hcount : a.encode.underscoreCount.toNat = a.tail.underscoreCount := by
    rcases a with ⟨g, t⟩
    cases g <;> cases t <;> rfl
  have hle : a.tail.underscoreCount ≤ 2 := by
    cases a.tail <;> decide
  refine ⟨hupper.trans h.host, hunder.trans h.path, ?_, hdot.trans h.dot, hdash.trans h.dash,
    hcount.trans h.underscores, hcount ▸ hle⟩
  rintro ⟨hhost, hpath⟩
  cases (h.host.mpr hhost).symm.trans (h.path.mpr hpath)

end Shape

namespace Looping

variable {kind : Kind} {bytes w todo : List UInt8} {s : State}

theorem spec (hk : kind ≠ .ipV6) (h : Looping kind bytes w s todo) :
    bytes = w ++ todo ∧ Reads kind.flavor w s := by
  induction h with
  | start => exact ⟨rfl, reads_init _ _ (ofKind_eq hk)⟩
  | @turn w todo s t c h hc ht ih =>
    obtain ⟨rfl, hreads⟩ := ih
    exact ⟨by simp, (hreads.turn_sat c).of_ok ht⟩

/-- What is left to scan decides how the loop ends. -/
theorem scanLoop_eq (h : Looping kind bytes w s todo) :
    scanLoop (HostOrPathSpan.init kind) bytes = scanLoop s todo := by
  induction h with
  | start => rfl
  | turn h hc ht ih => rw [ih, scanLoop_cons _ _ hc, ht, Outcome.ok_bind]

/-- The loop gets behind every text that the automaton reads and a u8 can count. -/
theorem of_run (hk : kind ≠ .ipV6) (todo : List UInt8) {a : Shape}
    (ha : Shape.run ⟨kind.flavor, .item⟩ w = .ok a) (hlen : w.length ≤ maxU8) :
    ∃ s, Looping kind (w ++ todo) w s todo := by
  induction w using List.reverseRecOn generalizing a todo with
  | nil => exact ⟨_, .start⟩
  | append_singleton w c ih =>
    rw [List.length_append, List.length_singleton] at hlen
    have hb := ha
    rw [Shape.run_concat] at hb
    obtain ⟨b, hb, hstep⟩ := Outcome.bind_eq_ok.mp hb
    obtain ⟨s, h⟩ := ih (c :: todo) hb (by omega)
    obtain ⟨t, ht, -⟩ := (h.spec hk).2.turn_ok ha (by omega)
    rw [List.append_assoc]
    exact ⟨t, .turn h (not_isStop_of_step hstep) ht⟩

/-- Where a failing loop stops. -/
theorem exists_stop {e : Error} (h : Looping kind bytes w s todo)
    (herr : scanLoop s todo = .err e) :
    ∃ inner t c rest, Looping kind bytes (w ++ inner) t (c :: rest) ∧ isStop c = false ∧
      (t.update c >>= State.advance) = .err e := by
  induction todo generalizing w s with
  | nil => cases herr
  | cons c todo ih =>
    cases hc : isStop c with
    | true =>
      rw [scanLoop, hc] at herr
      cases herr
    | false =>
      rw [scanLoop_cons s todo hc] at herr
      rcases Outcome.bind_eq_err.mp herr with hturn | ⟨t, ht, herr⟩
      · exact ⟨[], s, c, todo, by rwa [List.append_nil], hc, hturn⟩
      · obtain ⟨inner, t', d, rest, hend, hd, hturn⟩ := ih (h.turn hc ht) herr
        exact ⟨[c] ++ inner, t', d, rest, by rwa [← List.append_assoc], hd, hturn⟩

/-- Where a loop that ends has stopped. -/
theorem exists_end {t : State} (h : Looping kind bytes w s todo)
    (hok : scanLoop s todo = .ok t) :
    ∃ inner rest, Looping kind bytes (w ++ inner) t rest ∧ StopsAt isStop rest := by
  induction todo generalizing w s with
  | nil =>
    cases hok
    exact ⟨[], [], by rwa [List.append_nil], stopsAt_nil _⟩
  | cons c todo ih =>
    cases hc : isStop c with
    | true =>
      rw [scanLoop, hc] at hok
      cases hok
      exact ⟨[], c :: todo, by rwa [List.append_nil], stopsAt_cons.mpr hc⟩
    | false =>
      rw [scanLoop_cons s todo hc] at hok
      obtain ⟨t', ht, hok⟩ := Outcome.bind_eq_ok.mp hok
      obtain ⟨inner, rest, hend, hstop⟩ := ih (h.turn hc ht) hok
      exact ⟨[c] ++ inner, rest, by rwa [← List.append_assoc], hstop⟩

end Looping

/-- A turn fails for the byte, or because the length is at its limit. -/
theorem Reads.turn_eq_err {f : Flavor} {w : List UInt8} {s : State} (h : Reads f w s) {c : UInt8}
    {e : Error} : (s.update c >>= State.advance) = .err e ↔
      (∃ kind, Refused f w c kind ∧ e = ⟨w.length, kind⟩) ∨
        (∀ kind, ¬Refused f w c kind) ∧ w.length = maxU8 ∧ e = ⟨maxU8, .hostOrPathTooLong⟩ := by
  obtain ⟨a, ha, hscan⟩ := h.run
  have hmeans := Shape.means_of_run ha
  have hlen := h.len
  have hle := h.le
  have hkind : ∀ kind, a.step c = .err kind ↔ Refused f w c kind := fun kind =>
    hmeans.step_eq_err
  rw [update_eq hscan]
  simp only [← hkind]
  cases hstep : a.step c with
  | panic p => exact absurd hstep (Shape.step_ne_panic a c p)
  | err kind =>
    rw [hlen]
    constructor
    · intro h
      exact Or.inl ⟨kind, rfl, (Outcome.err.inj h).symm⟩
    · rintro (⟨_, ⟨⟩, rfl⟩ | ⟨hnone, -, -⟩)
      · rfl
      · exact absurd rfl (hnone kind)
  | ok b =>
    rw [Outcome.ok_bind, Outcome.mapErr_ok, Outcome.ok_bind, State.advance, hlen]
    dsimp only
    constructor
    · intro h
      rcases Outcome.bind_eq_err.mp h with h | ⟨len, -, h⟩
      · obtain ⟨hnone, rfl⟩ := Outcome.okOr_eq_err.mp h
        have hover := checkedAddU8_eq_none.mp hnone
        have hmax : w.length = maxU8 := by omega
        exact Or.inr ⟨by simp, hmax, by rw [hmax]⟩
      · cases h
    · rintro (⟨kind, hnot, -⟩ | ⟨-, hmax, rfl⟩)
      · cases hnot
      · have hnone : checkedAddU8 w.length 1 = none := checkedAddU8_eq_none.mpr (by omega)
        rw [hnone, hmax]
        rfl

/-- What the state of the loop means in every turn, and which bytes it refuses. -/
theorem loop_state_means (kind : Kind) (hk : kind ≠ .ipV6) {bytes w todo : List UInt8} {s : State}
    (h : Looping kind bytes w s todo) :
    DebugScan.Means kind.flavor w (.ofScan s.scan) ∧ s.len = w.length ∧
      s.decidingChar = w.findIdx? (fun c => isUpper c || c == byte '_') ∧
      ∀ c e, (s.update c >>= State.advance) = .err e ↔
        (∃ kind', Refused kind.flavor w c kind' ∧ e = ⟨w.length, kind'⟩) ∨
          (∀ kind', ¬Refused kind.flavor w c kind') ∧ w.length = 255 ∧
            e = ⟨255, .hostOrPathTooLong⟩ := by
  obtain ⟨-, hreads⟩ := h.spec hk
  obtain ⟨a, ha, hscan⟩ := hreads.run
  refine ⟨?_, hreads.len, hreads.decider, fun c e => hreads.turn_eq_err⟩
  rw [hscan]
  exact (Shape.means_of_run ha).debugScan

theorem loop_state_means_underscores :
    ∃ s, Looping .any (asBytes "a__" ++ asBytes "_") (asBytes "a__") s (asBytes "_") ∧
      DebugScan.Means .neutral (asBytes "a__") (.ofScan s.scan) ∧
      (s.update (byte '_') >>= State.advance) = .err ⟨3, .hostOrPathInvalidChar⟩ := by
  have hk : Kind.any ≠ .ipV6 := by decide
  have hrun : Shape.run ⟨.neutral, .item⟩ (asBytes "a__") = .ok ⟨.path, .underscores⟩ := by decide
  have hhost : ¬Hosted .neutral (asBytes "a__") := by
    rintro (h | ⟨c, hc, hupper⟩)
    · cases h
    · have hall : ∀ c ∈ asBytes "a__", isUpper c = false := by decide +kernel
      cases (hall c hc).symm.trans hupper
  obtain ⟨s, hs⟩ := Looping.of_run hk (asBytes "_") hrun (by decide)
  obtain ⟨hmeans, -, -, herr⟩ := loop_state_means .any hk hs
  exact ⟨s, hs, hmeans, (herr _ _).mpr (Or.inl ⟨_, .third hhost (by decide), rfl⟩)⟩

end HostOrPath

end ContainerImageDistRef
