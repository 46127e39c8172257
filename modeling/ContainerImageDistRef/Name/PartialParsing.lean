import ContainerImageDistRef.Name.Domain.Host
import ContainerImageDistRef.Name.Path

/-!
# Paths and hosts that end before their source

The parsers of a path and of a host stop at certain bytes and leave the rest
unread. Their wrappers take the whole source along with the span and assert
that the two have the same length. `Domain::new` cuts the source first.
-/

namespace ContainerImageDistRef

open ByteString

theorem len_ne_of_head? {u rest : String} {c : UInt8} (h : (asBytes rest).head? = some c) :
    len u ≠ len (u ++ rest) := by
  rw [len_append]
  intro heq
  have hrest : rest = "" := len_eq_zero.mp (by omega)
  rw [hrest] at h
  cases h

namespace Path

theorem span_of_new {u : String} {path : Path} (h : new u = .ok path) :
    ∃ span, PathSpan.new u = .ok span ∧ span.length.val = len u := by
  obtain ⟨span, hspan, hpath⟩ := Outcome.bind_eq_ok.mp h
  obtain ⟨_, hassert, -⟩ := Outcome.bind_eq_ok.mp hpath
  exact ⟨span, hspan, Outcome.assert_eq_ok.mp hassert⟩

/-- The whole source is a path. -/
theorem mem_path_of_new {u : String} {path : Path} (h : new u = .ok path) :
    asBytes u ∈ Grammar.path ∧ len u ≤ maxU8 := by
  obtain ⟨span, hspan, hlen⟩ := span_of_new h
  obtain ⟨v, rest, hsrc, hv, hvlen, -⟩ := (PathSpan.new_sat u).of_ok hspan
  have hsplit : u ++ "" = v ++ rest := by rw [String.append_empty, hsrc]
  obtain ⟨rfl, -⟩ := append_inj hsplit (hlen.symm.trans hvlen)
  exact ⟨hv, hlen ▸ span.length.le⟩

/-- A path that is followed by anything fails the assertion. -/
theorem new_panics {u rest : String} {path : Path} {c : UInt8} (h : new u = .ok path)
    (hrest : (asBytes rest).head? = some c) (hc : PathSpan.isEnd c = true) :
    new (u ++ rest) = .panic .assertion := by
  obtain ⟨hu, hlen⟩ := mem_path_of_new h
  obtain ⟨span, hspan, hspanlen⟩ := PathSpan.new_ok rest hu hlen (stopsAt_of_head? hrest hc)
  have hne : ¬span.length.val = len (u ++ rest) := hspanlen ▸ len_ne_of_head? hrest
  rw [new, hspan, Outcome.ok_bind, fromSpan, Outcome.assert_false hne]
  rfl

end Path

namespace Host

theorem span_of_new {u : String} {host : Host} (h : new u = .ok host) :
    ∃ span, HostSpan.new u = .ok span ∧ span.length.val = len u := by
  obtain ⟨span, hspan, hhost⟩ := Outcome.bind_eq_ok.mp h
  obtain ⟨_, hassert, -⟩ := Outcome.bind_eq_ok.mp hhost
  exact ⟨span, hspan, Outcome.assert_eq_ok.mp hassert⟩

/-- A host that is followed by anything fails the assertion. -/
theorem new_panics {u rest : String} {host : Host} {c : UInt8} (h : new u = .ok host)
    (hrest : (asBytes rest).head? = some c) (hc : HostOrPath.isStop c = true) :
    new (u ++ rest) = .panic .assertion := by
  obtain ⟨span, hspan, hlen⟩ := span_of_new h
  have htext := (HostSpan.spans_of_new hspan hlen).text
  obtain ⟨span', hspan', hspans⟩ := HostSpan.new_ok rest htext (hlen ▸ span.length.le)
    (stopsAt_of_head? hrest hc)
  have hne : ¬span'.length.val = len (u ++ rest) := hspans.length ▸ len_ne_of_head? hrest
  rw [new, hspan', Outcome.ok_bind, fromSpan, Outcome.assert_false hne]
  rfl

theorem fromExactMatch_panics {src : String} {p : PanicCause} (h : new src = .panic p) :
    fromExactMatch src = .panic p := by
  rw [fromExactMatch, h]
  rfl

end Host

/-- A path that ends before its source is returned. -/
def Path.ReadsPart (u rest : String) : Prop :=
  ∃ path, Path.new (u ++ rest) = .ok path ∧ path.toStr (ε := Empty) = .ok u

/-- A host that ends before its source is returned, and is no exact match. -/
def Host.ReadsPart (u rest : String) : Prop :=
  (∃ host, Host.new (u ++ rest) = .ok host ∧ host.toStr = u) ∧
    ∃ e, Host.fromExactMatch (u ++ rest) = .err e

/-- Neither a path nor a host is read from a longer source: an assertion fails, always. -/
theorem partial_parsing_panics (u rest : String) (c : UInt8)
    (hrest : (asBytes rest).head? = some c) :
    (∀ path, Path.new u = .ok path → PathSpan.isEnd c = true →
        Path.new (u ++ rest) = .panic .assertion ∧ ¬Path.ReadsPart u rest) ∧
      ∀ host, Host.new u = .ok host → HostOrPath.isStop c = true →
        Host.new (u ++ rest) = .panic .assertion ∧
          Host.fromExactMatch (u ++ rest) = .panic .assertion ∧ ¬Host.ReadsPart u rest := by
  constructor
  · intro path hpath hc
    have hpanic := Path.new_panics hpath hrest hc
    refine ⟨hpanic, ?_⟩
    rintro ⟨path', hnew, -⟩
    cases hpanic.symm.trans hnew
  · intro host hhost hc
    have hpanic := Host.new_panics hhost hrest hc
    refine ⟨hpanic, Host.fromExactMatch_panics hpanic, ?_⟩
    rintro ⟨⟨host', hnew, -⟩, -⟩
    cases hpanic.symm.trans hnew

theorem partial_parsing_panics_tag :
    Path.new ("a/b" ++ ":1") = .panic .assertion ∧ Host.new ("h" ++ "/a") = .panic .assertion := by
  have hpath : Path.new "a/b" = .ok ⟨"a/b", ⟨⟨3, by decide, by decide⟩⟩⟩ := by decide +kernel
  have hhost : Host.new "h" = .ok ⟨.name, "h"⟩ := by decide +kernel
  exact ⟨((partial_parsing_panics "a/b" ":1" (byte ':') rfl).1 _ hpath rfl).1,
    ((partial_parsing_panics "h" "/a" (byte '/') rfl).2 _ hhost rfl).1⟩

/-- The path before a tag and the host before a port. -/
theorem partial_parsing_fails :
    (Path.new "a").Succeeds ∧ Path.new "a:b" = .panic .assertion ∧
      (Host.new "a").Succeeds ∧ Host.new "a:5" = .panic .assertion ∧
      Host.fromExactMatch "a:5" = .panic .assertion :=
  ⟨by decide +kernel, by decide +kernel, by decide +kernel, by decide +kernel,
    by decide +kernel⟩

end ContainerImageDistRef
