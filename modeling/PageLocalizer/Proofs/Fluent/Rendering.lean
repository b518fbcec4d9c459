import PageLocalizer.Fluent.Format

-- Patterns of texts and parameters are formatted by putting the parameters in.
namespace PageLocalizer.Fluent

def Segment.parameter? : Segment → Option String
  | .placeable (.inline (.parameter n)) => some n
  | _ => none

-- The parameters that a pattern shows, as often as it shows them.
def parameters (p : Pattern) : List String := p.filterMap Segment.parameter?

def Segment.isPlain : Segment → Bool
  | .text _ | .placeable (.inline (.parameter _)) => true
  | .placeable _ => false

def Segment.filled (value : String → String) : Segment → String
  | .text s => s
  | .placeable (.inline (.parameter n)) => value n
  | .placeable _ => ""

-- All references are replaced in one step, so what a value says is not looked at.
def substitute (value : String → String) (p : Pattern) : String :=
  String.join (p.map (Segment.filled value))

-- The text of a pattern that is nothing but text.
def literal? : Pattern → Option String
  | [] => some ""
  | .text s :: rest => (literal? rest).map (s ++ ·)
  | .placeable _ :: _ => none

section Substitution

variable {p : Pattern} {segment : Segment} {n text : String} {value value' : String → String}

@[simp] theorem substitute_nil (value : String → String) : substitute value [] = "" := rfl

theorem substitute_cons (value : String → String) (segment : Segment) (p : Pattern) :
    substitute value (segment :: p) = segment.filled value ++ substitute value p :=
  String.join_cons

@[simp] theorem substitute_text (value : String → String) (s : String) (p : Pattern) :
    substitute value (.text s :: p) = s ++ substitute value p :=
  substitute_cons ..

@[simp] theorem substitute_parameter (value : String → String) (n : String) (p : Pattern) :
    substitute value (.placeable (.inline (.parameter n)) :: p) = value n ++ substitute value p :=
  substitute_cons ..

theorem mem_parameters (h : .placeable (.inline (.parameter n)) ∈ p) : n ∈ parameters p :=
  List.mem_filterMap.mpr ⟨_, h, rfl⟩

private theorem parameters_cons (segment : Segment) (p : Pattern) :
    parameters (segment :: p) = parameters [segment] ++ parameters p := by
  rw [← List.singleton_append, parameters, List.filterMap_append]
  rfl

theorem substitute_congr (h : ∀ n ∈ parameters p, value n = value' n) :
    substitute value p = substitute value' p := by
  refine congrArg String.join (List.map_congr_left fun segment hs => ?_)
  cases segment with
  | text s => rfl
  | placeable shown =>
      cases shown with
      | select e variants => rfl
      | inline e => cases e <;> first | rfl | exact h _ (mem_parameters hs)

private theorem literal?_eq_some (h : literal? p = some text) :
    (∀ segment ∈ p, segment.isPlain = true) ∧ parameters p = [] ∧
      substitute (fun _ => "") p = text := by
  induction p generalizing text with
  | nil => simpa [literal?, parameters] using h
  | cons segment rest ih =>
      cases segment with
      | placeable shown => simp [literal?] at h
      | text s =>
          simp only [literal?, Option.map_eq_some_iff] at h
          obtain ⟨more, hmore, rfl⟩ := h
          obtain ⟨hplain, hparameters, rfl⟩ := ih hmore
          exact ⟨List.forall_mem_cons.mpr ⟨rfl, hplain⟩, hparameters, substitute_text ..⟩

end Substitution

namespace Format

variable {c : Context} {s : State} {p : Pattern} {segment : Segment} {value : String → String}

-- A parameter counts as a placeable, and nothing else changes in the state.
private theorem segment_plain (hs : s.stopped = false) (hl : s.localArguments = none)
    (hn : s.placeables + (parameters [segment]).length ≤ placeableLimit)
    (hplain : segment.isPlain = true)
    (hv : ∀ n ∈ parameters [segment], c.arguments.lookup n = some (value n)) :
    (Format.segment c segment).run s = (segment.filled value,
      { s with placeables := s.placeables + (parameters [segment]).length }) := by
  cases segment with
  | text t => rfl
  | placeable shown =>
      cases shown with
      | select e variants => simp [Segment.isPlain] at hplain
      | inline e =>
          cases e <;> simp only [Segment.isPlain, Bool.false_eq_true] at hplain
          have hlimit : ¬placeableLimit < s.placeables + 1 := Nat.not_lt.mpr hn
          have hgiven := hv _ (mem_parameters (List.mem_singleton_self _))
          simp [Format.segment, Format.placeable, Format.expression, Context.parameter, hl, hgiven,
            hs, hlimit, Value.shown]
          rfl

private theorem segments_plain (hs : s.stopped = false) (hl : s.localArguments = none)
    (hn : s.placeables + (parameters p).length ≤ placeableLimit)
    (hplain : ∀ segment ∈ p, segment.isPlain = true)
    (hv : ∀ n ∈ parameters p, c.arguments.lookup n = some (value n)) :
    (segments c p).run s =
      (substitute value p, { s with placeables := s.placeables + (parameters p).length }) := by
  induction p generalizing s with
  | nil => rfl
  | cons first rest ih =>
      rw [parameters_cons] at hn hv ⊢
      rw [List.length_append, ← Nat.add_assoc] at hn ⊢
      rw [List.forall_mem_append] at hv
      rw [List.forall_mem_cons] at hplain
      have hfirst : (Format.segment c first).run s = (pure (first.filled value,
          { s with placeables := s.placeables + (parameters [first]).length }) :
            Id (String × State)) := segment_plain hs hl (by omega) hplain.1 hv.1
      have hrest := @ih { s with placeables := s.placeables + (parameters [first]).length } hs hl
        hn hplain.2 hv.2
      unfold segments
      simp only [StateT.run_bind, StateT.run_get, pure_bind, hs, Bool.false_eq_true, if_false,
        hfirst]
      rw [hs] at hrest
      rw [hrest, substitute_cons]
      rfl

end Format

namespace Bundle

variable {b : Bundle} {arguments : Params} {p : Pattern} {value : String → String} {text : String}

theorem format_substitute (hplain : ∀ segment ∈ p, segment.isPlain = true)
    (hn : (parameters p).length ≤ Format.placeableLimit)
    (hv : ∀ n ∈ parameters p, arguments.lookup n = some (value n)) :
    b.format arguments p = ⟨substitute value p, true⟩ := by
  have hrun := @Format.segments_plain
    { bundle := b, arguments, path := [p],
      follow := Format.pattern b arguments (b.patternCount + 1) [p] }
    .initial p value rfl rfl (by simpa [Format.State.initial] using hn) hplain hv
  have hpattern : (Format.pattern b arguments (b.patternCount + 2) [] p).run .initial =
      (substitute value p, { Format.State.initial with
        placeables := Format.State.initial.placeables + (parameters p).length }) := hrun
  simp only [format, hpattern]
  rfl

theorem format_literal? (b : Bundle) (arguments : Params) (h : literal? p = some text) :
    b.format arguments p = ⟨text, true⟩ := by
  obtain ⟨hplain, hparameters, rfl⟩ := literal?_eq_some h
  exact format_substitute hplain (by simp [hparameters]) (by simp [hparameters])

end Bundle
end PageLocalizer.Fluent
