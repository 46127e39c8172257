import ContainerImageDistRef.Reference

/-!
# The parts of a reference

The abstract side of the reference parser. `Parts` holds the texts of a
reference together with the proofs that each is in the language of its rule
and that no domain is missing where the name asks for one. A reference is what
`print` writes, and a span describes the parts when it holds their lengths.
Lengths are all that a span stores, so it describes at most one reading of a
string.
-/

namespace ContainerImageDistRef

open ByteString Grammar

/-- A host and an optional port. -/
@[ext] structure DomainParts where
  host : String
  port : Option String
  host_mem : ∃ kind, HostSpan.HostText kind host
  port_mem : ∀ q, port = some q → asBytes q ∈ portNumber

def DomainParts.text (d : DomainParts) : String := DomainSpan.text d.host d.port

theorem isHostByte_of_mem (d : DomainParts) : ∀ c ∈ asBytes d.text, isHostByte c = true := by
  have hdigit : ∀ c, isDigit c = true → isHostByte c = true := forall_byte (by decide)
  obtain ⟨kind, hkind⟩ := d.host_mem
  have hhost := hkind.bytes
  intro c hc
  rw [DomainParts.text, DomainSpan.text.eq_def] at hc
  cases hq : d.port with
  | none =>
    rw [hq] at hc
    exact hhost c hc
  | some q =>
    rw [hq] at hc
    simp only [asBytes_append, List.mem_append] at hc
    rcases hc with (hc | hc) | hc
    · exact hhost c hc
    · obtain rfl : c = byte ':' := List.mem_singleton.mp hc
      decide
    · exact hdigit c ((SeparatedList.mem_many1_symbol.mp (d.port_mem q hq)).2 c hc)

/-- `[domain "/"] path` -/
def nameText (domain : Option DomainParts) (path : String) : String :=
  match domain with
  | none => path
  | some d => d.text ++ "/" ++ path

/-- `[":" tag]` -/
def tagText (tag : Option String) : String :=
  match tag with
  | none => ""
  | some t => ":" ++ t

/-- `["@" digest]` -/
def digestText (digest : Option String) : String :=
  match digest with
  | none => ""
  | some d => "@" ++ d

theorem digestText_injective {d d' : Option String} (h : digestText d = digestText d') :
    d = d' := by
  have hne : ∀ s, "" ≠ "@" ++ s := fun s hs => by
    have h0 : len "" = len "@" + len s := (congrArg len hs).trans (len_append "@" s)
    change 0 = 1 + len s at h0
    omega
  cases d with
  | none =>
    cases d' with
    | none => rfl
    | some y => exact absurd h (hne y)
  | some x =>
    cases d' with
    | none => exact absurd h.symm (hne x)
    | some y => exact congrArg some ((String.append_right_inj _).mp h)

/-- The limit on a tag depends on the route by which it is read. -/
def tagLimit (domain : Option DomainParts) (path : String) : Nat :=
  if domain.isNone = true ∧ byte '/' ∉ asBytes path then Tag.MAX_LEN else Tag.MAX_LEN + 1

/-- The parts of a reference, each in the language of its rule. -/
@[ext] structure Parts where
  domain : Option DomainParts
  path : String
  tag : Option String
  digest : Option String
  path_mem : asBytes path ∈ Grammar.path
  undomained : domain = none → Undomained (asBytes path)
  name_le : len (nameText domain path) ≤ Name.MAX_LEN
  tag_mem : ∀ t, tag = some t → PortOrTag.TagText (asBytes t) ∧ len t ≤ tagLimit domain path
  digest_ok : ∀ d, digest = some d → (DigestSpan.new d).Succeeds

namespace Parts

def name (p : Parts) : String := nameText p.domain p.path

/-- `[domain "/"] path [":" tag] ["@" digest]` -/
def print (p : Parts) : String := p.name ++ tagText p.tag ++ digestText p.digest

theorem asBytes_name {p : Parts} {d : DomainParts} (hd : p.domain = some d) :
    asBytes p.name = asBytes d.text ++ byte '/' :: asBytes p.path := by
  rw [name, hd, nameText]
  exact asBytes_sep "/" rfl d.text p.path

theorem name_of_none {p : Parts} (hd : p.domain = none) : p.name = p.path := by
  rw [name, hd, nameText]

theorem path_le {p : Parts} (hd : p.domain = none) : len p.path ≤ Name.MAX_LEN := by
  have h := p.name_le
  rwa [hd] at h

/-- Only the name decides on the limit of a tag. -/
theorem tagLimit_eq (p : Parts) :
    tagLimit p.domain p.path = if byte '/' ∈ asBytes p.name then 129 else 128 := by
  cases hd : p.domain with
  | none =>
    rw [name_of_none hd, tagLimit]
    by_cases hslash : byte '/' ∈ asBytes p.path
    · rw [if_pos hslash, if_neg fun h => h.2 hslash]
      rfl
    · rw [if_neg hslash, if_pos ⟨rfl, hslash⟩]
      rfl
  | some d =>
    have hslash : byte '/' ∈ asBytes p.name := by
      rw [asBytes_name hd]
      simp
    rw [if_pos hslash, tagLimit, if_neg (by simp)]
    rfl

/-- The name says whether it begins with a domain. -/
theorem domain_eq_none_iff (p : Parts) : p.domain = none ↔ Undomained (asBytes p.name) := by
  cases hd : p.domain with
  | none =>
    rw [name_of_none hd]
    exact iff_of_true rfl (p.undomained hd)
  | some d =>
    have hslash : byte '/' ∉ asBytes d.text := fun hc =>
      absurd (isHostByte_of_mem d _ hc) (by decide)
    have hunder : byte '_' ∉ asBytes d.text := fun hc =>
      absurd (isHostByte_of_mem d _ hc) (by decide)
    rw [asBytes_name hd]
    exact iff_of_false (Option.some_ne_none _) (not_undomained hslash hunder _)

theorem print_bare {p : Parts} (ht : p.tag = none) (hd : p.digest = none) : p.print = p.name := by
  rw [print, ht, hd, tagText, digestText, String.append_empty, String.append_empty]

/-- A span that holds the lengths of the parts. -/
structure Spans (p : Parts) (span : RefSpan) : Prop where
  domain : Option.Rel (fun (d : DomainParts) s => s.Spans d.host d.port) p.domain
    span.name.domain
  path : span.name.path.length.val = len p.path
  tag : Option.Rel (fun t (s : TagSpan) => s.length.val = len t) p.tag span.tag
  digest : Option.Rel (fun d s => DigestSpan.new d = .ok s) p.digest span.digest

theorem tagLimit_le (domain : Option DomainParts) (path : String) :
    tagLimit domain path ≤ 129 := by
  rw [tagLimit]
  split <;> decide

section Lengths

theorem len_nameText_some (d : DomainParts) (path : String) :
    len (nameText (some d) path) = len d.text + 1 + len path := by
  rw [nameText, len_append, len_append]
  rfl

theorem len_tagText_some (t : String) : len (tagText (some t)) = 1 + len t := by
  rw [tagText, len_append]
  rfl

theorem len_digestText_some (d : String) : len (digestText (some d)) = 1 + len d := by
  rw [digestText, len_append]
  rfl

end Lengths

section Unique

/-- Two texts of equal length at the same place are the same. -/
theorem domain_unique {d d' : Option DomainParts} {span : Option DomainSpan} {u u' : String}
    (h : Option.Rel (fun (d : DomainParts) s => s.Spans d.host d.port) d span)
    (h' : Option.Rel (fun (d : DomainParts) s => s.Spans d.host d.port) d' span)
    (hu : nameText d u = nameText d' u') : d = d' ∧ u = u' := by
  cases h with
  | none =>
    cases h' with
    | none => exact ⟨rfl, hu⟩
  | @some x s hx =>
    cases h' with
    | @some y _ hy =>
      have hlen : len x.text = len y.text := hx.len.symm.trans hy.len
      rw [nameText, nameText, String.append_assoc, String.append_assoc] at hu
      obtain ⟨htext, hrest⟩ := append_inj hu hlen
      refine ⟨congrArg some ?_, (String.append_right_inj _).mp hrest⟩
      have hhost : len x.host = len y.host := hx.host.length.symm.trans hy.host.length
      obtain ⟨h1, p1, hm1, hp1⟩ := x
      obtain ⟨h2, p2, hm2, hp2⟩ := y
      have hports : p1.map len = p2.map len := hx.port.symm.trans hy.port
      cases p1 with
      | none =>
        obtain rfl : p2 = none := Option.map_eq_none_iff.mp hports.symm
        obtain rfl : h1 = h2 := htext
        rfl
      | some q1 =>
        obtain ⟨q2, rfl, -⟩ := Option.map_eq_some_iff.mp hports.symm
        have hsplit : h1 ++ (":" ++ q1) = h2 ++ (":" ++ q2) := by
          simpa only [DomainParts.text, DomainSpan.text, String.append_assoc] using htext
        obtain ⟨rfl, hq⟩ := append_inj hsplit hhost
        obtain rfl := (String.append_right_inj _).mp hq
        rfl

theorem tag_unique {t t' : Option String} {span : Option TagSpan} {u u' : String}
    (h : Option.Rel (fun t (s : TagSpan) => s.length.val = len t) t span)
    (h' : Option.Rel (fun t (s : TagSpan) => s.length.val = len t) t' span)
    (hu : tagText t ++ u = tagText t' ++ u') : t = t' ∧ u = u' := by
  cases h with
  | none =>
    cases h' with
    | none =>
      rw [tagText, String.empty_append, String.empty_append] at hu
      exact ⟨rfl, hu⟩
  | @some x s hx =>
    cases h' with
    | @some y _ hy =>
      obtain ⟨hxy, hrest⟩ := append_inj hu (by
        rw [len_tagText_some, len_tagText_some, ← hx, ← hy])
      exact ⟨congrArg some ((String.append_right_inj _).mp hxy), hrest⟩

/-- The length of a name can be read off its span. -/
theorem len_nameText {d : Option DomainParts} {s : Option DomainSpan}
    (h : Option.Rel (fun (d : DomainParts) s => s.Spans d.host d.port) d s) (path : String) :
    len (nameText d path) = ((s.map fun s => s.len + 1).getD 0) + len path := by
  cases h with
  | none => exact (Nat.zero_add _).symm
  | some hx =>
    rw [len_nameText_some, DomainParts.text, ← hx.len]
    rfl

theorem rel_cases {α β : Type} {R : α → β → Prop} {x : Option α} {y : Option β}
    (h : Option.Rel R x y) :
    (x = none ∧ y = none) ∨ ∃ a b, x = some a ∧ y = some b ∧ R a b := by
  cases h with
  | none => exact Or.inl ⟨rfl, rfl⟩
  | some h => exact Or.inr ⟨_, _, rfl, rfl, h⟩

theorem rel_some {α β : Type} {R : α → β → Prop} {x : Option α} {y : Option β}
    (h : Option.Rel R x y) {a : α} (hx : x = some a) : ∃ b, y = some b ∧ R a b := by
  subst hx
  cases h with
  | some h => exact ⟨_, rfl, h⟩

theorem rel_unique {α β : Type} {R : α → β → Prop} {x : Option α} {s s' : Option β}
    (hR : ∀ a s s', R a s → R a s' → s = s') (h : Option.Rel R x s) (h' : Option.Rel R x s') :
    s = s' := by
  cases h with
  | none =>
    cases h' with
    | none => rfl
  | some hs =>
    cases h' with
    | some hs' => exact congrArg some (hR _ _ _ hs hs')

/-- A span describes at most one reading of a string. -/
theorem Spans.unique {p q : Parts} {span : RefSpan} (hp : p.Spans span) (hq : q.Spans span)
    (h : p.print = q.print) : p = q := by
  have hname : len p.name = len q.name := by
    rw [name, name, len_nameText hp.domain, len_nameText hq.domain, ← hp.path, ← hq.path]
  rw [print, print, String.append_assoc, String.append_assoc] at h
  obtain ⟨hnames, hrest⟩ := append_inj h hname
  obtain ⟨hdomain, hpath⟩ := domain_unique hp.domain hq.domain hnames
  obtain ⟨htag, hdigests⟩ := tag_unique hp.tag hq.tag hrest
  exact Parts.ext hdomain hpath htag (digestText_injective hdigests)

/-- A name has one span. -/
theorem name_unique {p q : Parts} {s s' : RefSpan} (h : p.Spans s) (h' : q.Spans s')
    (hd : p.domain = q.domain) (hp : p.path = q.path) : s.name = s'.name := by
  have hdomain : s.name.domain = s'.name.domain := by
    refine rel_unique (fun d s s' hs hs' => ?_) h.domain (hd ▸ h'.domain)
    exact hs.unique hs'
  have hlen : s.name.path.length = s'.name.path.length :=
    Length.ext (h.path.trans ((congrArg len hp).trans h'.path.symm))
  obtain ⟨⟨domain, ⟨length⟩⟩, tag, digest⟩ := s
  obtain ⟨⟨domain', ⟨length'⟩⟩, tag', digest'⟩ := s'
  cases hdomain
  cases hlen
  rfl

/-- Parts have one span. -/
theorem Spans.span_unique {p : Parts} {s s' : RefSpan} (h : p.Spans s) (h' : p.Spans s') :
    s = s' := by
  have hname := name_unique h h' rfl rfl
  obtain ⟨name, tag, digest⟩ := s
  obtain ⟨name', tag', digest'⟩ := s'
  have htag : tag = tag' := by
    refine rel_unique (fun t s s' hs hs' => ?_) h.tag h'.tag
    have hlen : s.length = s'.length := Length.ext (hs.trans hs'.symm)
    cases s
    cases s'
    cases hlen
    rfl
  have hdigest : digest = digest' := by
    refine rel_unique (fun d s s' hs hs' => ?_) h.digest h'.digest
    exact Outcome.ok.inj (hs.symm.trans hs')
  obtain rfl : name = name' := hname
  rw [htag, hdigest]

end Unique

end Parts

end ContainerImageDistRef
