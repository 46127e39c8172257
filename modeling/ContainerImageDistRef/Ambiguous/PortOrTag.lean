import ContainerImageDistRef.Err
import ContainerImageDistRef.Grammar
import ContainerImageDistRef.Span

/-!
# Ports and tags that cannot be told apart yet

What follows a colon is scanned as a port until a byte occurs that only a tag
can contain; from then on it is a tag. A `/` can only follow a port and a `@`
only a tag.
-/

namespace ContainerImageDistRef

open ByteString Grammar

namespace PortOrTag

inductive Kind where
  /-- digits only: can be a port or a tag -/
  | port
  | tag
  deriving DecidableEq, Repr

/-- Every port is a valid tag, and no tag becomes a port again. -/
def Kind.update (self other : Kind) : Option Kind :=
  match self, other with
  | .port, .port | .tag, .tag => some self
  | .port, .tag => some .tag
  | .tag, .port => none

structure State where
  len : ShortLength
  kind : Kind
  firstTagChar : Nat
  deriving DecidableEq, Repr

namespace State

def updateKind (s : State) (other : Kind) : Outcome Error State := do
  let s :=
    if s.kind = .port ∧ other = .tag then { s with firstTagChar := s.len.val, kind := .tag }
    else s
  let kind ← Outcome.okOr (s.kind.update other) ⟨s.firstTagChar, .portInvalidChar⟩
  .ok { s with kind := kind }

def advance (s : State) : Outcome Error State :=
  if 129 ≤ s.len.val ∧ s.kind = .tag then .err ⟨s.len.val, .tagTooLong⟩
  else do
    let len ← Outcome.okOr (s.len.checkedAdd 1) ⟨s.len.val, .portTooLong⟩
    .ok { s with len := len }

/-- The kind that a byte after the first asks for. -/
def update (s : State) (c : UInt8) : Outcome Error State :=
  if isDigit c then s.updateKind s.kind
  else if isLower c || isUpper c || c == byte '.' || c == byte '-' || c == byte '_' then
    s.updateKind .tag
  else if c = byte '/' then s.updateKind .port
  else if c = byte '@' then s.updateKind .tag
  else .err ⟨s.len.val, .portOrTagInvalidChar⟩

end State

def isStop (c : UInt8) : Bool := c == byte '/' || c == byte '@'

/-- The loop over the bytes after the first. A stop byte still updates the kind. -/
def scanLoop (s : State) : List UInt8 → Outcome Error State
  | [] => .ok s
  | c :: rest => do
    let s ← s.update c
    if isStop c then .ok s
    else do
      let s ← s.advance
      scanLoop s rest

end PortOrTag

structure PortOrTagSpan where
  length : ShortLength
  kind : PortOrTag.Kind
  firstTagChar : Nat
  deriving DecidableEq, Repr

namespace PortOrTagSpan

open PortOrTag

def narrow (span : PortOrTagSpan) (kind : Kind) : Outcome Error PortOrTagSpan := do
  let kind ← Outcome.okOr (span.kind.update kind) ⟨span.firstTagChar, .portInvalidChar⟩
  .ok { span with kind := kind }

/-- The kind the first byte after the colon leaves possible. -/
def firstKind (kind : Kind) (first : Option UInt8) : Outcome Err.Kind Kind :=
  match first with
  | none => .err .portOrTagMissing
  | some c =>
    if isDigit c then .ok kind
    else if isLower c || isUpper c || c == byte '_' then
      Outcome.okOr (kind.update .tag) .portInvalidChar
    else if c = byte '/' ∨ c = byte '@' then .err .portOrTagMissing
    else .err .portOrTagInvalidChar

def new (src : String) (kind : Kind) : Outcome Error PortOrTagSpan := do
  let kind ← (firstKind kind (asBytes src).head?).mapErr fun kind => (⟨0, kind⟩ : Error)
  let state : State := { len := ShortLength.one, kind := kind, firstTagChar := 0 }
  let state ← scanLoop state (asBytes src).tail
  Outcome.assert (state.len.val ≤ len src)
  Outcome.assert (state.len.val < len src →
    (asBytes src)[state.len.val]? = some (byte '/') ∨
      (asBytes src)[state.len.val]? = some (byte '@'))
  .ok ⟨state.len, state.kind, state.firstTagChar⟩

end PortOrTagSpan

namespace PortOrTag

/-- The texts of a tag, but for its length. -/
def TagText (u : List UInt8) : Prop :=
  ∃ c w, u = c :: w ∧ isWord c = true ∧ ∀ d ∈ w, isTagByte d = true

/-- The kind that reading `u` leaves of the kind asked for. -/
def kindOf (kind : Kind) (u : List UInt8) : Kind :=
  if u.all isDigit then kind else .tag

theorem kindOf_concat (kind : Kind) (u : List UInt8) (c : UInt8) :
    kindOf kind (u ++ [c]) = if isDigit c = true then kindOf kind u else .tag := by
  by_cases hc : isDigit c = true
  · simp [kindOf, hc]
  · simp [kindOf, hc]

theorem TagText.concat {u : List UInt8} {c : UInt8} (h : TagText u) (hc : isTagByte c = true) :
    TagText (u ++ [c]) := by
  obtain ⟨d, w, rfl, hd, hw⟩ := h
  refine ⟨d, w ++ [c], rfl, hd, fun e he => ?_⟩
  rcases List.mem_append.mp he with he | he
  · exact hw e he
  · exact List.mem_singleton.mp he ▸ hc

theorem isTagByte_of_isWord {c : UInt8} (h : isWord c = true) : isTagByte c = true := by
  simp [isTagByte, h]

theorem TagText.forall {u : List UInt8} (h : TagText u) : ∀ c ∈ u, isTagByte c = true := by
  obtain ⟨d, w, rfl, hd, hw⟩ := h
  intro c hc
  rcases List.mem_cons.mp hc with rfl | hc
  · exact isTagByte_of_isWord hd
  · exact hw c hc

theorem ascii_of_isTagByte : ∀ c : UInt8, isTagByte c = true → c < 128 :=
  forall_byte (by decide)

theorem kindOf_eq_port {mode : Kind} {u : List UInt8} :
    kindOf mode u = .port ↔ mode = .port ∧ ∀ c ∈ u, isDigit c = true := by
  rw [kindOf]
  by_cases hall : u.all isDigit = true
  · rw [if_pos hall]
    exact ⟨fun h => ⟨h, List.all_eq_true.mp hall⟩, fun h => h.1⟩
  · rw [if_neg hall]
    constructor
    · intro h
      cases h
    · rintro ⟨-, hdigits⟩
      exact absurd (List.all_eq_true.mpr hdigits) hall

/-- Where the text stops being a port, if a port was asked for. -/
def firstTagCharOf (mode : Kind) (u : List UInt8) : Nat :=
  match mode with
  | .tag => 0
  | .port => (u.findIdx? fun c => !isDigit c).getD 0

theorem firstTagCharOf_le (mode : Kind) (u : List UInt8) :
    firstTagCharOf mode u ≤ u.length - 1 := by
  cases mode with
  | tag => exact Nat.zero_le _
  | port =>
    rw [firstTagCharOf]
    cases hi : u.findIdx? fun c => !isDigit c with
    | none => exact Nat.zero_le _
    | some i =>
      obtain ⟨hlt, -⟩ := List.findIdx?_eq_some_iff_getElem.mp hi
      exact Nat.le_sub_one_of_lt hlt

theorem firstTagCharOf_digit {mode : Kind} {u : List UInt8} {c : UInt8} (hc : isDigit c = true) :
    firstTagCharOf mode (u ++ [c]) = firstTagCharOf mode u := by
  cases mode with
  | tag => rfl
  | port => simp [firstTagCharOf, List.findIdx?_append, hc]

/-- Behind digits only, any other byte is the first of a tag. -/
theorem firstTagCharOf_port {mode : Kind} {u : List UInt8} {c : UInt8}
    (hu : kindOf mode u = .port) (hc : isDigit c = false) :
    firstTagCharOf mode (u ++ [c]) = u.length := by
  obtain ⟨rfl, hall⟩ := kindOf_eq_port.mp hu
  have hnone : u.findIdx? (fun c => !isDigit c) = none := by
    rw [List.findIdx?_eq_none_iff]
    intro d hd
    rw [hall d hd]
    rfl
  simp [firstTagCharOf, List.findIdx?_append, hnone, hc]

/-- What is known to be a tag keeps its first byte. -/
theorem firstTagCharOf_tag {mode : Kind} {u : List UInt8} {c : UInt8}
    (hu : kindOf mode u = .tag) : firstTagCharOf mode (u ++ [c]) = firstTagCharOf mode u := by
  cases mode with
  | tag => rfl
  | port =>
    have hsome : ∃ d ∈ u, (!isDigit d) = true := by
      by_contra hno
      have hport : kindOf .port u = .port := by
        rw [kindOf_eq_port]
        refine ⟨rfl, fun d hd => ?_⟩
        by_contra hnot
        exact hno ⟨d, hd, by simpa using hnot⟩
      cases hu.symm.trans hport
    obtain ⟨i, hi⟩ : ∃ i, u.findIdx? (fun c => !isDigit c) = some i :=
      ⟨_, List.findIdx?_eq_some_of_exists hsome⟩
    simp [firstTagCharOf, List.findIdx?_append, hi]

/-- A text that the scan can count: only one that can be a port may be longer than a tag. -/
def Readable (mode : Kind) (u : List UInt8) : Prop :=
  TagText u ∧ u.length ≤ maxU8 ∧ (kindOf mode u = .tag → u.length ≤ 129)

/-- The state after the bytes `u`. -/
structure Reads (mode : Kind) (u : List UInt8) (s : State) : Prop where
  text : TagText u
  len : s.len.val = u.length
  kind : s.kind = kindOf mode u
  /-- the limit of `advance`, which is one more than `Tag.MAX_LEN` -/
  bound : s.kind = .tag → u.length ≤ 129
  first : s.firstTagChar = firstTagCharOf mode u

@[simp] theorem Kind.update_self (kind : Kind) : kind.update kind = some kind := by
  cases kind <;> rfl

theorem State.updateKind_self (s : State) : s.updateKind s.kind = .ok s := by
  have h : ¬(s.kind = .port ∧ s.kind = .tag) := by
    rintro ⟨h1, h2⟩
    cases h1.symm.trans h2
  rw [State.updateKind, if_neg h]
  simp

theorem isStop_of_isTagByte : ∀ c, isTagByte c = true → isStop c = false :=
  forall_byte (by decide)

/-- The end of the loop: a stop byte may still settle the kind, or contradict it. -/
structure Ends (mode : Kind) (u rest : List UInt8) (s : State) : Prop where
  text : TagText u
  len : s.len.val = u.length
  kind : s.kind = if rest.head? = some (byte '@') then .tag else kindOf mode u
  bound : kindOf mode u = .tag → u.length ≤ 129
  first : s.firstTagChar =
    firstTagCharOf mode (if rest.head? = some (byte '@') then u ++ [byte '@'] else u)
  slash : rest.head? = some (byte '/') → kindOf mode u = .port
  stops : StopsAt isStop rest

theorem Ends.first_le {mode : Kind} {u rest : List UInt8} {s : State} (h : Ends mode u rest s) :
    s.firstTagChar ≤ u.length := by
  rw [h.first]
  split
  · have hle := firstTagCharOf_le mode (u ++ [byte '@'])
    rwa [List.length_append, List.length_singleton, Nat.add_sub_cancel] at hle
  · exact Nat.le_trans (firstTagCharOf_le mode u) (Nat.sub_le _ _)

theorem isStop_cases {c : UInt8} (h : isStop c = true) : c = byte '/' ∨ c = byte '@' := by
  simpa [isStop] using h

namespace Reads

variable {mode : Kind} {u : List UInt8} {s : State} {c : UInt8}

theorem start (mode : Kind) (hc : isWord c = true) :
    Reads mode [c] ⟨ShortLength.one, kindOf mode [c], 0⟩ where
  text := ⟨c, [], rfl, hc, by simp⟩
  len := rfl
  kind := rfl
  bound _ := by simp
  first := by
    cases mode with
    | tag => rfl
    | port => cases hd : isDigit c <;> simp [firstTagCharOf, hd]

theorem updateKind_tag (h : Reads mode u s) (hc : isDigit c = false) :
    s.updateKind .tag = .ok ⟨s.len, .tag, firstTagCharOf mode (u ++ [c])⟩ := by
  have hkind := h.kind
  cases hk : s.kind with
  | port =>
    rw [firstTagCharOf_port (hkind.symm.trans hk) hc, ← h.len, State.updateKind, hk,
      if_pos ⟨rfl, rfl⟩]
    rfl
  | tag =>
    rw [firstTagCharOf_tag (hkind.symm.trans hk), ← h.first, State.updateKind, hk,
      if_neg (by simp), hk]
    rfl

/-- A byte of a tag is read. -/
theorem update (h : Reads mode u s) (hc : isTagByte c = true) :
    s.update c = .ok ⟨s.len, kindOf mode (u ++ [c]), firstTagCharOf mode (u ++ [c])⟩ := by
  rw [kindOf_concat, State.update]
  cases hd : isDigit c with
  | true =>
    rw [if_pos rfl, if_pos rfl, State.updateKind_self, firstTagCharOf_digit hd, ← h.first,
      ← h.kind]
  | false =>
    have htag : (isLower c || isUpper c || c == byte '.' || c == byte '-' || c == byte '_')
        = true := by
      simp only [isTagByte, isWord, isAlnum, hd, Bool.or_eq_true, Bool.or_false] at hc ⊢
      tauto
    rw [if_neg Bool.false_ne_true, if_pos htag, if_neg Bool.false_ne_true, h.updateKind_tag hd]

end Reads

theorem update_other (s : State) {c : UInt8} (hc : isTagByte c = false)
    (hstop : isStop c = false) : s.update c = .err ⟨s.len.val, .portOrTagInvalidChar⟩ := by
  have hclass : ∀ c, isTagByte c = false → isStop c = false → isDigit c = false ∧
      (isLower c || isUpper c || c == byte '.' || c == byte '-' || c == byte '_') = false ∧
      c ≠ byte '/' ∧ c ≠ byte '@' := forall_byte (by decide)
  obtain ⟨hd, ht, hslash, hat⟩ := hclass c hc hstop
  rw [State.update, hd, ht, if_neg hslash, if_neg hat]
  rfl

theorem scanLoop_stop (s : State) {c : UInt8} (rest : List UInt8) (hc : isStop c = true) :
    scanLoop s (c :: rest) = s.update c := by
  rw [scanLoop, hc]
  cases s.update c <;> rfl

theorem scanLoop_cons (s : State) {c : UInt8} (rest : List UInt8) (hc : isStop c = false) :
    scanLoop s (c :: rest) = (s.update c >>= State.advance) >>= fun t => scanLoop t rest := by
  rw [scanLoop, hc, bind_assoc]
  rfl

theorem kindOf_eq_tag_of_append {kind : Kind} {u v : List UInt8} (h : kindOf kind u = .tag) :
    kindOf kind (u ++ v) = .tag := by
  rw [kindOf] at h ⊢
  split
  · rename_i hall
    rw [List.all_append, Bool.and_eq_true] at hall
    rw [if_pos hall.1] at h
    exact h
  · rfl

namespace Reads

variable {mode : Kind} {u : List UInt8} {s : State} {c : UInt8}

/-- One turn of the loop reads one byte, or fails where it stands. -/
theorem turn_sat (h : Reads mode u s) (hstop : isStop c = false) :
    (s.update c >>= State.advance).Sat (Reads mode (u ++ [c])) fun e => e.index = u.length := by
  cases hc : isTagByte c with
  | false =>
    rw [update_other s hc hstop]
    exact h.len
  | true =>
    rw [h.update hc, Outcome.ok_bind, State.advance]
    split
    · exact h.len
    · rename_i hlimit
      refine Outcome.Sat.bind (P := fun len : ShortLength => s.len.val + 1 = len.val)
        (Outcome.sat_okOr (fun len hlen => Length.checkedAdd_eq_some.mp hlen)
          fun _ => h.len) fun len hlen => ?_
      refine ⟨h.text.concat hc, by simp [← hlen, h.len], rfl, fun hk => ?_, rfl⟩
      have : ¬ 129 ≤ s.len.val := fun hle => hlimit ⟨hle, hk⟩
      rw [List.length_append, List.length_singleton, ← h.len]
      omega

/-- A further byte of a tag is read while the limit of its kind allows it. -/
theorem turn_ok (h : Reads mode u s) (hc : isTagByte c = true) (hlen : u.length < maxU8)
    (hbound : kindOf mode (u ++ [c]) = .tag → u.length < 129) :
    ∃ t, (s.update c >>= State.advance) = .ok t := by
  have hadd : s.len.checkedAdd 1 = some ⟨s.len.val + 1, Nat.succ_pos _, h.len ▸ hlen⟩ :=
    Length.checkedAdd_eq_some.mpr rfl
  have hlimit : ¬(129 ≤ s.len.val ∧ kindOf mode (u ++ [c]) = .tag) := by
    rintro ⟨hle, hk⟩
    have := hbound hk
    rw [h.len] at hle
    omega
  rw [h.update hc, Outcome.ok_bind, State.advance, if_neg hlimit, hadd]
  exact ⟨_, rfl⟩

theorem readable (h : Reads mode u s) : Readable mode u := by
  refine ⟨h.text, h.len ▸ s.len.le, fun hk => ?_⟩
  exact h.bound (h.kind.trans hk)

/-- A slash contradicts a tag. -/
theorem update_slash (h : Reads mode u s) : s.update (byte '/') =
    if kindOf mode u = .tag then .err ⟨firstTagCharOf mode u, .portInvalidChar⟩ else .ok s := by
  have hkind := h.kind
  change s.updateKind .port = _
  cases hk : kindOf mode u with
  | tag =>
    rw [hk] at hkind
    rw [State.updateKind, hkind, if_neg (by simp), hkind, h.first]
    rfl
  | port =>
    rw [hk] at hkind
    rw [← hkind, s.updateKind_self, hkind]
    rfl

theorem update_at (h : Reads mode u s) : s.update (byte '@') =
    .ok ⟨s.len, .tag, firstTagCharOf mode (u ++ [byte '@'])⟩ :=
  h.updateKind_tag (by decide)

theorem ends (h : Reads mode u s) : Ends mode u [] s :=
  ⟨h.text, h.len, h.kind, fun hk => h.bound (h.kind.trans hk), h.first, by simp, stopsAt_nil _⟩

/-- A stop byte ends the loop, but for a slash behind a tag. -/
theorem stop (h : Reads mode u s) (hc : isStop c = true) (rest : List UInt8) :
    (c = byte '/' ∧ kindOf mode u = .tag ∧
        s.update c = .err ⟨firstTagCharOf mode u, .portInvalidChar⟩) ∨
      ∃ t, s.update c = .ok t ∧ Ends mode u (c :: rest) t := by
  have hbound : kindOf mode u = .tag → u.length ≤ 129 := fun hk => h.bound (h.kind.trans hk)
  rcases isStop_cases hc with rfl | rfl
  · have hat : ¬(byte '/' :: rest).head? = some (byte '@') := by
      rw [List.head?_cons, Option.some.injEq]
      decide
    have hslash := h.update_slash
    cases hk : kindOf mode u with
    | tag =>
      rw [if_pos hk] at hslash
      exact Or.inl ⟨rfl, rfl, hslash⟩
    | port =>
      rw [if_neg (by simp [hk])] at hslash
      refine Or.inr ⟨s, hslash, h.text, h.len, ?_, hbound, ?_, fun _ => hk, stopsAt_cons.mpr hc⟩
      · rw [if_neg hat, h.kind]
      · rw [if_neg hat, h.first]
  · have hslash : ¬(byte '@' :: rest).head? = some (byte '/') := by
      rw [List.head?_cons, Option.some.injEq]
      decide
    exact Or.inr ⟨_, h.update_at, h.text, h.len, rfl, hbound, rfl, fun hs => absurd hs hslash,
      stopsAt_cons.mpr hc⟩

/-- In front of a stop byte or at the end the loop ends. -/
theorem scanLoop_end {rest : List UInt8} (h : Reads mode u s) (hstop : StopsAt isStop rest)
    (hslash : rest.head? = some (byte '/') → kindOf mode u = .port) :
    ∃ t, scanLoop s rest = .ok t ∧ Ends mode u rest t := by
  cases rest with
  | nil => exact ⟨s, rfl, h.ends⟩
  | cons c rest =>
    have hc := stopsAt_cons.mp hstop
    rw [scanLoop_stop s rest hc]
    rcases h.stop hc rest with ⟨rfl, hk, -⟩ | hok
    · cases hk.symm.trans (hslash rfl)
    · exact hok

/-- The loop gets behind every readable text. -/
theorem scanLoop_append {done : List UInt8} (h : Reads mode done s) (rest : List UInt8)
    (hu : Readable mode (done ++ u)) :
    ∃ t, Reads mode (done ++ u) t ∧ scanLoop s (u ++ rest) = scanLoop t rest := by
  induction u generalizing done s with
  | nil => exact ⟨s, by rwa [List.append_nil], rfl⟩
  | cons c u ih =>
    have happ : done ++ c :: u = done ++ [c] ++ u := by simp
    obtain ⟨htext, hlen, hbound⟩ := hu
    have hc : isTagByte c = true := htext.forall c (by simp)
    have hns := isStop_of_isTagByte c hc
    have hshort : done.length < (done ++ c :: u).length := by simp
    obtain ⟨t, ht⟩ := h.turn_ok hc (by omega) fun hk => by
      have hle := hbound (by rw [happ]; exact kindOf_eq_tag_of_append hk)
      omega
    rw [happ] at htext hlen hbound ⊢
    obtain ⟨t', hreads, hloop⟩ := ih ((h.turn_sat hns).of_ok ht) ⟨htext, hlen, hbound⟩
    exact ⟨t', hreads, by rw [List.cons_append, scanLoop_cons s _ hns, ht, Outcome.ok_bind,
      hloop]⟩

/-- Where the loop stops or fails. -/
theorem exists_end {done : List UInt8} (h : Reads mode done s) (todo : List UInt8) :
    ∃ u rest t, todo = u ++ rest ∧ Reads mode (done ++ u) t ∧
      scanLoop s todo = scanLoop t rest ∧
      (StopsAt isStop rest ∨ ∃ c rest' e, rest = c :: rest' ∧ isStop c = false ∧
        (t.update c >>= State.advance) = .err e) := by
  induction todo generalizing done s with
  | nil => exact ⟨[], [], s, rfl, by rwa [List.append_nil], rfl, Or.inl (stopsAt_nil _)⟩
  | cons c todo ih =>
    cases hc : isStop c with
    | true =>
      exact ⟨[], c :: todo, s, rfl, by rwa [List.append_nil], rfl, Or.inl (stopsAt_cons.mpr hc)⟩
    | false =>
      have hsat := h.turn_sat hc
      cases hturn : s.update c >>= State.advance with
      | panic p =>
        rw [hturn] at hsat
        exact False.elim hsat
      | err e =>
        exact ⟨[], c :: todo, s, rfl, by rwa [List.append_nil], rfl,
          Or.inr ⟨c, todo, e, rfl, hc, hturn⟩⟩
      | ok t =>
        obtain ⟨u, rest, t', rfl, hreads, hloop, hend⟩ := ih ((h.turn_sat hc).of_ok hturn)
        refine ⟨c :: u, rest, t', rfl, ?_, ?_, hend⟩
        · rwa [List.append_cons]
        · rw [scanLoop_cons s _ hc, hturn, Outcome.ok_bind, hloop]

end Reads

/-- The loop reads the text of a port or a tag, up to a stop byte or to the end. The index of
an error fits a byte. -/
theorem scanLoop_sat {src : String} {mode : Kind} (done : List UInt8) {todo : List UInt8}
    {s : State} (hsrc : asBytes src = done ++ todo) (h : Reads mode done s) :
    (scanLoop s todo).Sat
      (fun t => ∃ u rest, asBytes src = u ++ rest ∧ Ends mode u rest t)
      fun e => AsciiUpTo src e.index ∧ e.index ≤ maxU8 := by
  obtain ⟨u, rest, t, rfl, ht, hloop, hend⟩ := h.exists_end todo
  rw [← List.append_assoc] at hsrc
  have hascii : AsciiUpTo src (done ++ u).length :=
    asciiUpTo_of_bytes hsrc fun d hd => ascii_of_isTagByte d (ht.text.forall d hd)
  have hle : (done ++ u).length ≤ maxU8 := ht.len ▸ t.len.le
  rw [hloop]
  rcases hend with hstop | ⟨c, rest, e, rfl, hc, herr⟩
  · cases rest with
    | nil => exact ⟨done ++ u, [], hsrc, ht.ends⟩
    | cons c rest =>
      have hc := stopsAt_cons.mp hstop
      rw [scanLoop_stop t rest hc]
      rcases ht.stop hc rest with ⟨-, -, herr⟩ | ⟨t', ht', hends⟩
      · have hfirst : firstTagCharOf mode (done ++ u) ≤ (done ++ u).length :=
          Nat.le_trans (firstTagCharOf_le _ _) (Nat.sub_le _ _)
        rw [herr]
        exact ⟨hascii.mono hfirst, Nat.le_trans hfirst hle⟩
      · rw [ht']
        exact ⟨_, _, hsrc, hends⟩
  · have hindex := (ht.turn_sat hc).of_err herr
    rw [scanLoop_cons t rest hc, herr, Outcome.err_bind]
    rw [← hindex] at hascii hle
    exact ⟨hascii, hle⟩

end PortOrTag

namespace PortOrTagSpan

open PortOrTag

/-- The span of `u`, where `rest` follows. -/
abbrev Spans (mode : Kind) (u rest : String) (span : PortOrTagSpan) : Prop :=
  Ends mode (asBytes u) (asBytes rest) ⟨span.length, span.kind, span.firstTagChar⟩

theorem firstKind_word (mode : Kind) {c : UInt8} (hc : isWord c = true) :
    firstKind mode (some c) = .ok (kindOf mode [c]) := by
  rw [firstKind]
  by_cases hd : isDigit c = true
  · rw [if_pos hd]
    simp [kindOf, hd]
  · have hw : (isLower c || isUpper c || c == byte '_') = true := by
      simp only [isWord, isAlnum, Bool.or_eq_true] at hc ⊢
      tauto
    rw [if_neg hd, if_pos hw]
    have hk : kindOf mode [c] = .tag := by simp [kindOf, hd]
    rw [hk]
    cases mode <;> rfl

theorem firstKind_other (mode : Kind) {c : UInt8} (hc : isWord c = false) :
    ∃ kind, firstKind mode (some c) = .err kind := by
  have hd : isDigit c = false := by simp_all [isWord, isAlnum]
  have hw : (isLower c || isUpper c || c == byte '_') = false := by
    simp_all [isWord, isAlnum]
  rw [firstKind, hd, hw]
  simp only [Bool.false_eq_true, if_false]
  split
  · exact ⟨_, rfl⟩
  · exact ⟨_, rfl⟩

/-- What is done at the end of the loop. -/
def finish (src : String) (state : State) : Outcome Error PortOrTagSpan := do
  Outcome.assert (state.len.val ≤ len src)
  Outcome.assert (state.len.val < len src →
    (asBytes src)[state.len.val]? = some (byte '/') ∨
      (asBytes src)[state.len.val]? = some (byte '@'))
  .ok ⟨state.len, state.kind, state.firstTagChar⟩

theorem new_word {src : String} {mode : Kind} {c : UInt8} {bytes : List UInt8}
    (hsrc : asBytes src = c :: bytes) (hc : isWord c = true) :
    new src mode = scanLoop ⟨ShortLength.one, kindOf mode [c], 0⟩ bytes >>= finish src := by
  rw [new, hsrc, List.head?_cons, List.tail_cons, firstKind_word mode hc, Outcome.mapErr_ok,
    Outcome.ok_bind, ← hsrc]
  rfl

/-- Behind a readable text the rest decides. -/
theorem new_of_readable {src : String} {mode : Kind} {u rest : List UInt8}
    (hsrc : asBytes src = u ++ rest) (hu : Readable mode u) :
    ∃ s, Reads mode u s ∧ new src mode = scanLoop s rest >>= finish src := by
  obtain ⟨c, w, rfl, hc, -⟩ := hu.1
  obtain ⟨s, hs, hloop⟩ := (Reads.start mode hc).scanLoop_append rest hu
  refine ⟨s, hs, ?_⟩
  rw [List.cons_append] at hsrc
  rw [new_word hsrc hc, hloop]

/-- The assertions of the debug build hold of what the loop has read. -/
theorem finish_eq {u rest : String} {mode : Kind} {s : State}
    (h : Ends mode (asBytes u) (asBytes rest) s) :
    finish (u ++ rest) s = .ok ⟨s.len, s.kind, s.firstTagChar⟩ := by
  have hlen : s.len.val = len u := h.len
  have hle : s.len.val ≤ len (u ++ rest) := by
    rw [len_append]
    omega
  have hnext : s.len.val < len (u ++ rest) →
      (asBytes (u ++ rest))[s.len.val]? = some (byte '/') ∨
        (asBytes (u ++ rest))[s.len.val]? = some (byte '@') := by
    intro hlt
    rw [hlen, getElem?_append_len]
    cases hr : asBytes rest with
    | nil =>
      have : len rest = 0 := by rw [← length_asBytes, hr]; rfl
      rw [len_append] at hlt
      omega
    | cons c r =>
      have hc : isStop c = true := h.stops c (by rw [hr]; rfl)
      exact (isStop_cases hc).imp (congrArg some) (congrArg some)
  rw [finish, Outcome.assert_true hle, Outcome.ok_bind, Outcome.assert_true hnext,
    Outcome.ok_bind]

/-- A successful parse spans the text of a port or a tag. -/
theorem new_sat (src : String) (mode : Kind) :
    (new src mode).Sat (fun span => ∃ u rest, src = u ++ rest ∧ Spans mode u rest span)
      fun e => AsciiUpTo src e.index ∧ e.index ≤ maxU8 := by
  have hzero : AsciiUpTo src 0 ∧ 0 ≤ maxU8 := ⟨asciiUpTo_zero src, Nat.zero_le _⟩
  cases hsrc : asBytes src with
  | nil =>
    rw [new, hsrc]
    exact hzero
  | cons c bytes =>
    cases hc : isWord c with
    | false =>
      obtain ⟨kind, hkind⟩ := firstKind_other mode hc
      rw [new, hsrc, List.head?_cons, hkind]
      exact hzero
    | true =>
      rw [new_word hsrc hc]
      apply Outcome.Sat.bind (scanLoop_sat [c] hsrc (.start mode hc))
      intro s
      rintro ⟨l, r, hlr, hends⟩
      obtain ⟨u, rest, rfl, rfl, rfl⟩ := exists_append_of_ascii hlr fun d hd =>
        ascii_of_isTagByte d (hends.text.forall d hd)
      rw [finish_eq hends]
      exact ⟨u, rest, rfl, hends⟩

/-- Every text within the limit of its kind is parsed to its end. -/
theorem new_ok {u rest : String} (mode : Kind) (htext : TagText (asBytes u))
    (hlen : len u ≤ maxU8) (hbound : kindOf mode (asBytes u) = .tag → len u ≤ 129)
    (hstop : StopsAt isStop (asBytes rest))
    (hslash : (asBytes rest).head? = some (byte '/') → kindOf mode (asBytes u) = .port) :
    ∃ span, new (u ++ rest) mode = .ok span ∧ Spans mode u rest span := by
  rw [← length_asBytes] at hlen hbound
  obtain ⟨s, hs, hnew⟩ := new_of_readable (asBytes_append u rest) ⟨htext, hlen, hbound⟩
  obtain ⟨t, ht, hends⟩ := hs.scanLoop_end hstop hslash
  refine ⟨⟨t.len, t.kind, t.firstTagChar⟩, ?_, hends⟩
  rw [hnew, ht, Outcome.ok_bind, finish_eq hends]

end PortOrTagSpan

end ContainerImageDistRef
