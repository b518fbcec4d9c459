import PageLocalizer.Fluent.Pattern

-- Patterns with the same parts are equal, so what a source reads as can be decided.
namespace PageLocalizer.Fluent

mutual

theorem Expression.same_iff : ∀ x y : Expression, x.same y = true ↔ x = y
  | .literal a, y => by cases y <;> simp [Expression.same]
  | .number a, y => by cases y <;> simp [Expression.same]
  | .parameter a, y => by cases y <;> simp [Expression.same]
  | .message a p, y => by cases y <;> simp [Expression.same]
  | .term a p x, y => by cases y <;> simp [Expression.same, Arguments.same_iff x, and_assoc]
  | .function a x, y => by cases y <;> simp [Expression.same, Arguments.same_iff x]
  | .nested x, y => by cases y <;> simp [Expression.same, Placeable.same_iff x]
termination_by structural x => x

theorem Arguments.same_iff : ∀ x y : Arguments, x.same y = true ↔ x = y
  | .absent, y => by cases y <;> simp [Arguments.same]
  | .given xs ns, y => by
      cases y <;> simp [Arguments.same, sameExpressions_iff xs, sameNamed_iff ns]
termination_by structural x => x

theorem NamedArgument.same_iff : ∀ x y : NamedArgument, x.same y = true ↔ x = y
  | .mk a x, .mk b y => by simp [NamedArgument.same, Expression.same_iff x]
termination_by structural x => x

theorem Placeable.same_iff : ∀ x y : Placeable, x.same y = true ↔ x = y
  | .inline x, y => by cases y <;> simp [Placeable.same, Expression.same_iff x]
  | .select x vs, y => by
      cases y <;> simp [Placeable.same, Expression.same_iff x, sameVariants_iff vs]
termination_by structural x => x

theorem Variant.same_iff : ∀ x y : Variant, x.same y = true ↔ x = y
  | .mk k p i, .mk l q j => by simp [Variant.same, samePattern_iff p, and_assoc]
termination_by structural x => x

theorem Segment.same_iff : ∀ x y : Segment, x.same y = true ↔ x = y
  | .text a, y => by cases y <;> simp [Segment.same]
  | .placeable x, y => by cases y <;> simp [Segment.same, Placeable.same_iff x]
termination_by structural x => x

theorem sameExpressions_iff : ∀ xs ys : List Expression, sameExpressions xs ys = true ↔ xs = ys
  | [], ys => by cases ys <;> simp [sameExpressions]
  | x :: xs, ys => by
      cases ys <;> simp [sameExpressions, Expression.same_iff x, sameExpressions_iff xs]
termination_by structural x => x

theorem sameNamed_iff : ∀ xs ys : List NamedArgument, sameNamed xs ys = true ↔ xs = ys
  | [], ys => by cases ys <;> simp [sameNamed]
  | x :: xs, ys => by cases ys <;> simp [sameNamed, NamedArgument.same_iff x, sameNamed_iff xs]
termination_by structural x => x

theorem sameVariants_iff : ∀ xs ys : List Variant, sameVariants xs ys = true ↔ xs = ys
  | [], ys => by cases ys <;> simp [sameVariants]
  | x :: xs, ys => by cases ys <;> simp [sameVariants, Variant.same_iff x, sameVariants_iff xs]
termination_by structural x => x

theorem samePattern_iff : ∀ p q : Pattern, samePattern p q = true ↔ p = q
  | [], q => by cases q <;> simp [samePattern]
  | s :: p, q => by cases q <;> simp [samePattern, Segment.same_iff s, samePattern_iff p]
termination_by structural x => x

end

instance : DecidableEq Segment := fun s t => decidable_of_iff _ (Segment.same_iff s t)

deriving instance DecidableEq for Attribute, Message, Term, Entry

end PageLocalizer.Fluent
