import ContainerImageDistRef.Library.Groups
import ContainerImageDistRef.Name.Domain.Ipv6

/-!
# The colons of an IPv6 literal

The packed state of the scan, unpacked into plain numbers: how many colons
have been read, how many of them at the end, and whether two stood in a row.
The scan refines a machine over these, and the texts that this machine reads
are the hex digits with at most seven colons of which at most one pair stands
together. Groups of digits do not occur in it.
-/

namespace ContainerImageDistRef

open ByteString Groups

namespace Ipv6

/-- What is known of the colons that have been read. -/
structure Colons where
  count : Nat
  /-- the colons at the end -/
  run : Nat
  double : Bool
  deriving DecidableEq, Repr

namespace Colons

def start : Colons := ⟨0, 0, false⟩

/-- A further colon is not the third in a row, ends no second pair and is not the eighth. -/
def colon (a : Colons) : Outcome Err.Kind Colons :=
  if 2 ≤ a.run ∨ a.run = 1 ∧ a.double = true then .err .ipv6BadColon
  else if 7 ≤ a.count then .err .ipv6TooManyGroups
  else .ok ⟨a.count + 1, a.run + 1, a.double || a.run == 1⟩

def digit (a : Colons) : Colons := { a with run := 0 }

def read (a : Colons) (c : UInt8) : Outcome Err.Kind Colons :=
  if isHexDigit c then .ok a.digit
  else if c = byte ':' then a.colon
  else if c = byte '/' then .err .ipv6MissingClosingBracket
  else .err .ipv6InvalidChar

end Colons

/-- The packed byte without its position. -/
def State.colons (s : State) : Colons :=
  ⟨s.currentGroup.toNat, s.colonCount.toNat, s.doubleColonAlreadySeen⟩

theorem setColon_colons (s : State) : State.colons <$> s.setColon = s.colons.colon := by
  have h : ∀ bits, State.colons <$> State.setColon ⟨bits⟩ = (State.colons ⟨bits⟩).colon :=
    forall_byte (by decide)
  exact h s.bits

theorem incrementPositionInGroup_colons (s : State) :
    State.colons <$> s.incrementPositionInGroup = .ok s.colons.digit := by
  have h : ∀ bits, State.colons <$> State.incrementPositionInGroup ⟨bits⟩ =
      .ok (State.colons ⟨bits⟩).digit :=
    forall_byte (by decide)
  exact h s.bits

/-- Each turn of the scan is a turn of the plain machine. -/
theorem update_colons (s : State) (c : UInt8) :
    State.colons <$> update s c = s.colons.read c := by
  rw [update, Colons.read]
  split
  · exact incrementPositionInGroup_colons s
  · split
    · exact setColon_colons s
    · split <;> rfl

/-- The scan of some bytes refines the plain machine. -/
theorem foldlM_colons (w : List UInt8) :
    State.colons <$> w.foldlM update ⟨0⟩ = w.foldlM Colons.read Colons.start :=
  Outcome.map_foldlM update_colons ⟨0⟩ w

/-- The position in the group never leaves zero, and so it never gets too large. -/
theorem update_position (s : State) (c : UInt8) :
    (update s c).Sat (fun t => t.positionInGroup = 0)
      fun kind => kind ≠ .ipv6TooManyHexDigits := by
  have hdigit : ∀ bits, (State.incrementPositionInGroup ⟨bits⟩).Sat
      (fun t => t.positionInGroup = 0) fun kind => kind ≠ .ipv6TooManyHexDigits :=
    forall_byte (by decide)
  have hcolon : ∀ bits, (State.setColon ⟨bits⟩).Sat
      (fun t => t.positionInGroup = 0) fun kind => kind ≠ .ipv6TooManyHexDigits :=
    forall_byte (by decide)
  rw [update]
  split
  · exact hdigit s.bits
  · split
    · exact hcolon s.bits
    · split <;> exact fun h => Err.Kind.noConfusion h

def isColon (c : UInt8) : Bool := c == byte ':'

theorem isHexDigit_of_isInner {c : UInt8} (h : isInner c = true) (hc : c ≠ byte ':') :
    isHexDigit c = true := by
  simpa [isInner, hc] using h

theorem ne_colon_of_isHexDigit : ∀ c : UInt8, isHexDigit c = true → c ≠ byte ':' :=
  forall_byte (by decide)

/-- At most one pair of colons stands together, and it is no longer than two. -/
def PairsOnce (w : List UInt8) : Prop :=
  ¬Doubled (byte ':') w ∨ ∃ u v, SplitAtDouble (byte ':') u v w

/-- Hex digits, and at most seven colons of which at most two stand together. -/
structure Legal (w : List UInt8) : Prop where
  inner : ∀ c ∈ w, isInner c = true
  count : w.count (byte ':') ≤ 7
  pairs : PairsOnce w

/-- What the plain machine knows of the text it has read. -/
structure Reads (w : List UInt8) (a : Colons) : Prop where
  legal : Legal w
  count : a.count = w.count (byte ':')
  run : a.run = trailing isColon w
  run_le : a.run ≤ 2
  double : a.double = true ↔ Doubled (byte ':') w

theorem reads_start : Reads [] Colons.start := by
  have hdouble : Colons.start.double = true ↔ Doubled (byte ':') [] := by
    constructor
    · intro h
      cases h
    · intro h
      exact absurd h not_doubled_nil
  exact ⟨⟨by simp, by simp, Or.inl not_doubled_nil⟩, rfl, rfl, Nat.zero_le _, hdouble⟩

theorem trailing_isColon {w : List UInt8} :
    trailing isColon w = 0 ↔ w.getLast? ≠ some (byte ':') := by
  rw [trailing_eq_zero]
  constructor
  · intro h hlast
    exact absurd (h _ hlast) (by decide)
  · intro h c hc
    rw [isColon, beq_eq_false_iff_ne]
    rintro rfl
    exact h hc

theorem Reads.digit {w : List UInt8} {a : Colons} (h : Reads w a) {c : UInt8}
    (hc : isHexDigit c = true) : Reads (w ++ [c]) a.digit := by
  have hne := ne_colon_of_isHexDigit c hc
  have hdouble : Doubled (byte ':') (w ++ [c]) ↔ Doubled (byte ':') w := by
    rw [doubled_concat]
    simp [hne]
  refine ⟨⟨?_, ?_, ?_⟩, ?_, ?_, Nat.zero_le _, ?_⟩
  · intro d hd
    rcases List.mem_append.mp hd with hd | hd
    · exact h.legal.inner d hd
    · rw [List.mem_singleton.mp hd, isInner, hc]
      rfl
  · rw [List.count_append, List.count_singleton]
    simpa [hne] using h.legal.count
  · rcases h.legal.pairs with hnone | ⟨u, v, hsplit⟩
    · exact Or.inl (hdouble.not.mpr hnone)
    · exact Or.inr ⟨u, v ++ [c], hsplit.concat fun heq => absurd heq hne⟩
  · rw [List.count_append, List.count_singleton]
    simpa [hne, Colons.digit] using h.count
  · rw [trailing_concat, if_neg (by simp [isColon, hne])]
    rfl
  · rw [hdouble]
    exact h.double

theorem exists_of_run {w : List UInt8} (h : trailing isColon w = 1) :
    ∃ u, w = u ++ [byte ':'] ∧ u.getLast? ≠ some (byte ':') := by
  obtain ⟨u, v, rfl, hlen, hall⟩ := exists_of_trailing (Nat.le_of_eq h.symm)
  obtain ⟨c, rfl⟩ := List.length_eq_one_iff.mp hlen
  obtain rfl : c = byte ':' := eq_of_beq (hall c (by simp))
  have hcolon : isColon (byte ':') = true := rfl
  rw [trailing_concat, if_pos hcolon] at h
  exact ⟨u, rfl, trailing_isColon.mp (by omega)⟩

/-- Before a colon that is read, the last byte is one if exactly one stands there. -/
theorem Reads.getLast?_iff {w : List UInt8} {a : Colons} (h : Reads w a) (hrun : a.run < 2) :
    w.getLast? = some (byte ':') ↔ a.run = 1 := by
  have hw := h.run
  constructor
  · intro hlast
    have hne : trailing isColon w ≠ 0 := fun hzero => trailing_isColon.mp hzero hlast
    omega
  · intro hone
    obtain ⟨u, rfl, -⟩ := exists_of_run (hw ▸ hone)
    exact List.getLast?_concat

/-- A colon that is not the third in a row and ends no second pair. -/
theorem Reads.pairs_colon {w : List UInt8} {a : Colons} (h : Reads w a) (hrun : a.run < 2)
    (hpair : a.run = 1 → a.double = false) : PairsOnce (w ++ [byte ':']) := by
  have hlast := h.getLast?_iff hrun
  by_cases hone : a.run = 1
  · have hdouble : ¬Doubled (byte ':') w := by
      rw [← h.double, hpair hone]
      exact Bool.false_ne_true
    obtain ⟨u, rfl, hu⟩ := exists_of_run (h.run ▸ hone)
    rw [doubled_concat, not_or] at hdouble
    exact Or.inr ⟨u, [], by simp, hdouble.1, not_doubled_nil, hu, by simp⟩
  rw [← hlast] at hone
  rcases h.legal.pairs with hnone | ⟨u, v, hsplit⟩
  · rw [PairsOnce, doubled_concat, not_or]
    exact Or.inl ⟨hnone, fun hd => hone hd.2⟩
  · refine Or.inr ⟨u, v ++ [byte ':'], hsplit.concat fun _ => ⟨?_, ?_⟩⟩
    · rintro rfl
      exact hone (by rw [hsplit.text, List.getLast?_append_of_ne_nil _ (by simp)]; rfl)
    · intro hv
      apply hone
      rw [hsplit.text, List.getLast?_append_of_ne_nil _ (by simp), List.getLast?_cons_cons,
        List.getLast?_cons, hv]
      rfl

theorem Reads.colon {w : List UInt8} {a b : Colons} (h : Reads w a) (hb : a.colon = .ok b) :
    Reads (w ++ [byte ':']) b := by
  have hcolon : isColon (byte ':') = true := rfl
  rw [Colons.colon] at hb
  split at hb
  · cases hb
  rename_i hbad
  split at hb
  · cases hb
  obtain rfl := Outcome.ok.inj hb
  rw [not_or, not_and, Bool.not_eq_true] at hbad
  have hrun : a.run < 2 := by omega
  have hcount := h.count
  refine ⟨⟨?_, ?_, h.pairs_colon hrun hbad.2⟩, ?_, ?_, hrun, ?_⟩
  · intro d hd
    rcases List.mem_append.mp hd with hd | hd
    · exact h.legal.inner d hd
    · rw [List.mem_singleton.mp hd]
      rfl
  · rw [List.count_append, List.count_singleton_self]
    omega
  · rw [List.count_append, List.count_singleton_self, hcount]
  · rw [trailing_concat, if_pos hcolon, h.run]
  · rw [doubled_concat, h.getLast?_iff hrun, ← h.double]
    simp

theorem Reads.read {w : List UInt8} {a b : Colons} (h : Reads w a) {c : UInt8}
    (hb : a.read c = .ok b) : Reads (w ++ [c]) b := by
  rw [Colons.read] at hb
  split at hb
  · rename_i hc
    obtain rfl := Outcome.ok.inj hb
    exact h.digit hc
  · split at hb
    · rename_i hc
      subst hc
      exact h.colon hb
    · split at hb <;> cases hb

/-- What the plain machine has read. -/
theorem reads_of_run {w : List UInt8} {a : Colons}
    (h : w.foldlM Colons.read Colons.start = .ok a) : Reads w a := by
  induction w using List.reverseRecOn generalizing a with
  | nil =>
    obtain rfl := Outcome.ok.inj h
    exact reads_start
  | append_singleton w c ih =>
    rw [List.foldlM_append] at h
    obtain ⟨b, hb, h⟩ := Outcome.bind_eq_ok.mp h
    rw [List.foldlM_cons] at h
    obtain ⟨a', ha, h⟩ := Outcome.bind_eq_ok.mp h
    obtain rfl := Outcome.ok.inj h
    exact (ih hb).read ha

theorem pairsOnce_of_concat {w : List UInt8} {c : UInt8} (h : PairsOnce (w ++ [c])) :
    PairsOnce w := by
  rcases h with hnone | ⟨u, v, hsplit⟩
  · rw [doubled_concat, not_or] at hnone
    exact Or.inl hnone.1
  · have htext := hsplit.text
    rcases List.eq_nil_or_concat v with rfl | ⟨v, d, rfl⟩
    · -- the pair ends here
      have hcat : w ++ [c] = (u ++ [byte ':']) ++ [byte ':'] := by simpa using htext
      obtain ⟨rfl, -⟩ := List.append_inj' hcat rfl
      rw [PairsOnce, doubled_concat, not_or]
      exact Or.inl ⟨hsplit.left, fun h => hsplit.left_end h.2⟩
    · rw [List.concat_eq_append] at hsplit htext
      have hcat : w ++ [c] = (u ++ byte ':' :: byte ':' :: v) ++ [d] := by simpa using htext
      obtain ⟨rfl, -⟩ := List.append_inj' hcat rfl
      have hright := hsplit.right
      rw [doubled_concat, not_or] at hright
      refine Or.inr ⟨u, v, rfl, hsplit.left, hright.1, hsplit.left_end, ?_⟩
      intro hhead
      exact hsplit.right_start (by rw [List.head?_append, hhead]; rfl)

theorem Legal.of_concat {w : List UInt8} {c : UInt8} (h : Legal (w ++ [c])) : Legal w := by
  refine ⟨fun d hd => h.inner d (List.mem_append_left _ hd), ?_, pairsOnce_of_concat h.pairs⟩
  have hcount := h.count
  rw [List.count_append] at hcount
  omega

/-- Before a colon that keeps the pairs single stands no colon, or one and no pair yet. -/
theorem run_of_pairs {w : List UInt8} (h : PairsOnce (w ++ [byte ':'])) :
    trailing isColon w = 0 ∨ trailing isColon w = 1 ∧ ¬Doubled (byte ':') w := by
  rcases h with hnone | ⟨u, v, hsplit⟩
  · rw [doubled_concat, not_or] at hnone
    exact Or.inl (trailing_isColon.mpr fun hlast => hnone.2 ⟨rfl, hlast⟩)
  · rcases List.eq_nil_or_concat v with rfl | ⟨v, d, rfl⟩
    · have hcat : w ++ [byte ':'] = (u ++ [byte ':']) ++ [byte ':'] := by simpa using hsplit.text
      obtain ⟨rfl, -⟩ := List.append_inj' hcat rfl
      have hcolon : isColon (byte ':') = true := rfl
      rw [trailing_concat, if_pos hcolon, trailing_isColon.mpr hsplit.left_end, doubled_concat,
        not_or]
      exact Or.inr ⟨rfl, hsplit.left, fun h => hsplit.left_end h.2⟩
    · rw [List.concat_eq_append] at hsplit
      have hcat : w ++ [byte ':'] = (u ++ byte ':' :: byte ':' :: v) ++ [d] := by
        simpa using hsplit.text
      obtain ⟨rfl, hd⟩ := List.append_inj' hcat rfl
      obtain rfl := List.singleton_inj.mp hd
      have hright := hsplit.right
      rw [doubled_concat, not_or] at hright
      have hne : v ≠ [] := by
        rintro rfl
        exact hsplit.right_start rfl
      refine Or.inl (trailing_isColon.mpr fun hlast => hright.2 ⟨rfl, ?_⟩)
      rw [List.append_cons, List.append_cons, List.getLast?_append_of_ne_nil _ hne] at hlast
      exact hlast

/-- A colon can be read where the text with it is legal. -/
theorem Reads.colon_ok {w : List UInt8} {a : Colons} (h : Reads w a)
    (hl : Legal (w ++ [byte ':'])) : ∃ b, a.colon = .ok b := by
  have hcount := hl.count
  have hwcount := h.count
  rw [List.count_append, List.count_singleton_self] at hcount
  have hbad : ¬(2 ≤ a.run ∨ a.run = 1 ∧ a.double = true) := by
    rw [h.run, h.double]
    rcases run_of_pairs hl.pairs with hzero | ⟨hone, hnone⟩
    · rw [hzero]
      simp
    · rw [hone]
      simp [hnone]
  rw [Colons.colon, if_neg hbad, if_neg (by omega)]
  exact ⟨_, rfl⟩

theorem Reads.read_ok {w : List UInt8} {a : Colons} (h : Reads w a) {c : UInt8}
    (hl : Legal (w ++ [c])) : ∃ b, a.read c = .ok b := by
  rw [Colons.read]
  by_cases hc : c = byte ':'
  · subst hc
    have hhex : ¬isHexDigit (byte ':') = true := by decide
    rw [if_neg hhex, if_pos rfl]
    exact h.colon_ok hl
  · rw [if_pos (isHexDigit_of_isInner (hl.inner c (by simp)) hc)]
    exact ⟨_, rfl⟩

/-- The plain machine reads exactly the legal texts. -/
theorem run_iff {w : List UInt8} :
    (∃ a, w.foldlM Colons.read Colons.start = .ok a) ↔ Legal w := by
  constructor
  · rintro ⟨a, ha⟩
    exact (reads_of_run ha).legal
  · intro hl
    induction w using List.reverseRecOn with
    | nil => exact ⟨_, rfl⟩
    | append_singleton w c ih =>
      obtain ⟨a, ha⟩ := ih hl.of_concat
      obtain ⟨b, hb⟩ := (reads_of_run ha).read_ok hl
      refine ⟨b, ?_⟩
      rw [List.foldlM_append, ha, Outcome.ok_bind, List.foldlM_cons, hb]
      rfl

/-- The packed scan reads exactly the legal texts, and then holds what they are. -/
theorem update_iff {w : List UInt8} : (∃ s, w.foldlM update ⟨0⟩ = .ok s) ↔ Legal w := by
  rw [← run_iff, ← foldlM_colons]
  constructor
  · rintro ⟨s, hs⟩
    exact ⟨s.colons, Outcome.map_eq_ok.mpr ⟨s, hs, rfl⟩⟩
  · rintro ⟨a, ha⟩
    obtain ⟨s, hs, -⟩ := Outcome.map_eq_ok.mp ha
    exact ⟨s, hs⟩

theorem reads_of_update {w : List UInt8} {s : State} (h : w.foldlM update ⟨0⟩ = .ok s) :
    Reads w s.colons := by
  apply reads_of_run
  rw [← foldlM_colons, h]
  rfl

end Ipv6

end ContainerImageDistRef
