import PageLocalizer.Proofs.Document.Consistency
import PageLocalizer.Proofs.Markup.Reader

-- What is written of a node tells all that a page shows there, and no text or attribute value is
-- taken for anything but itself.
namespace PageLocalizer

namespace Outline

open Markup

private theorem markupAll_join (o : Outline) (os : List Outline) :
    markupAll (o.join os) = o.markup ++ markupAll os := by
  cases o with
  | document children => rfl
  | element tag attributes children => rfl
  | text a =>
      by_cases ha : a = ""
      · simp [ha, join, markup, escape]
      · cases os with
        | nil => simp [join, ha, markupAll, markup]
        | cons next rest =>
            cases next <;> simp [join, ha, markupAll, markup, escape_append]

mutual

-- The normal form is written like the tree itself.
theorem markup_normal (o : Outline) : o.normal.markup = o.markup := by
  cases o with
  | document children => rw [normal, markup, markup, markupAll_normalAll]
  | element tag attributes children =>
      by_cases hvoid : tag ∈ voidTags
      · simp [normal, markup, hvoid]
      · simp [normal, markup, hvoid, markupAll_normalAll]
  | text data => rfl

theorem markupAll_normalAll (os : List Outline) : markupAll (normalAll os) = markupAll os := by
  cases os with
  | nil => rfl
  | cons first rest =>
      rw [normalAll, markupAll_join, markup_normal, markupAll_normalAll, markupAll]

end

end Outline

namespace Document

open Chronicle

variable {d d₁ d₂ : Document} {x x₁ x₂ : NodeId} {h₁ h₂ : Chronicle}

theorem outerHtml_eq_markup (d : Document) (x : NodeId) :
    d.outerHtml x = String.ofList (d.outline x).markup := by
  rw [outerHtml, outline, markup_outlineTo]

theorem read?_outerHtml (hw : d.WellFormed) (hn : d.WellNamed x) :
    Markup.read? (d.outerHtml x) = some (Outline.normalAll [d.outline x]) := by
  rw [outerHtml_eq_markup, Markup.read?_markup (wellNamed_outline hw hn)]

private theorem outerHtml_eq_of_normal (h : (d₁.outline x₁).normal = (d₂.outline x₂).normal) :
    d₁.outerHtml x₁ = d₂.outerHtml x₂ := by
  rw [outerHtml_eq_markup, outerHtml_eq_markup, ← Outline.markup_normal, h, Outline.markup_normal]

-- The reader finds the normal form of what stands at a node, so two nodes are written alike if and
-- only if they show the same: tags, attributes with their values, texts and nesting.
theorem outerHtml_eq_iff_normal (hr₁ : Recorded h₁) (hr₂ : Recorded h₂)
    (hn₁ : h₁.document.WellNamed x₁) (hn₂ : h₂.document.WellNamed x₂) :
    Markup.read? (h₁.document.outerHtml x₁) = some (Outline.normalAll [h₁.document.outline x₁]) ∧
      (h₁.document.outerHtml x₁ = h₂.document.outerHtml x₂ ↔
        (h₁.document.outline x₁).normal = (h₂.document.outline x₂).normal) := by
  have hread₁ := read?_outerHtml (sound_of_recorded hr₁).wellFormed hn₁
  have hread₂ := read?_outerHtml (sound_of_recorded hr₂).wellFormed hn₂
  refine ⟨hread₁, fun heq => ?_, outerHtml_eq_of_normal⟩
  have hall : some (Outline.normalAll [h₁.document.outline x₁]) =
      some (Outline.normalAll [h₂.document.outline x₂]) := by rw [← hread₁, ← hread₂, heq]
  exact Outline.normal_eq_of_normalAll (Option.some.inj hall)

-- Texts and values that look like markup, in one piece and in several, beside a void element that
-- has a child on one of the two pages.
def quotation : Chronicle :=
  [Operation.createElement "p", .setAttribute ⟨5, 0⟩ "title" "\"><br x=\"&quot;",
    .createText "</p>&lt;b&gt;", .appendChild ⟨5, 0⟩ ⟨6, 0⟩, .createElement "br",
    .appendChild ⟨5, 0⟩ ⟨7, 0⟩].foldl Chronicle.after Chronicle.start

def quotationInPieces : Chronicle :=
  [Operation.createText "</p>", .createText "", .createText "&lt;b&gt;", .createElement "p",
    .appendChild ⟨8, 0⟩ ⟨5, 0⟩, .appendChild ⟨8, 0⟩ ⟨6, 0⟩, .appendChild ⟨8, 0⟩ ⟨7, 0⟩,
    .createElement "br", .appendChild ⟨8, 0⟩ ⟨9, 0⟩, .createText "&", .appendChild ⟨9, 0⟩ ⟨10, 0⟩,
    .setAttribute ⟨8, 0⟩ "title" "\"><br x=\"&quot;"].foldl Chronicle.after Chronicle.start

private theorem recorded_quotation : Recorded quotation := .foldl .start (by decide +kernel)

private theorem recorded_quotationInPieces : Recorded quotationInPieces :=
  .foldl .start (by decide +kernel)

theorem normal_eq_quotation : Recorded quotation ∧ Recorded quotationInPieces ∧
    quotation.document.WellNamed ⟨5, 0⟩ ∧ quotationInPieces.document.WellNamed ⟨8, 0⟩ ∧
    (quotation.document.children ⟨5, 0⟩).length = 2 ∧
    (quotationInPieces.document.children ⟨8, 0⟩).length = 4 ∧
    quotation.document.outerHtml ⟨5, 0⟩ =
      "<p title=\"&quot;&gt;&lt;br x=&quot;&amp;quot;\">&lt;/p&gt;&amp;lt;b&amp;gt;<br></p>" ∧
    (quotation.document.outline ⟨5, 0⟩).normal =
      (quotationInPieces.document.outline ⟨8, 0⟩).normal := by
  have hr₁ := recorded_quotation
  have hr₂ := recorded_quotationInPieces
  have hn₁ : quotation.document.WellNamed ⟨5, 0⟩ := by decide +kernel
  have hn₂ : quotationInPieces.document.WellNamed ⟨8, 0⟩ := by decide +kernel
  exact ⟨hr₁, hr₂, hn₁, hn₂, by decide +kernel, by decide +kernel, by decide +kernel,
    (outerHtml_eq_iff_normal hr₁ hr₂ hn₁ hn₂).2.mp (by decide +kernel)⟩

end Document
end PageLocalizer
