import Ostinato.Proofs.Rendering.Closure

/-!
# Ostinato.Proofs.Rendering.Contexts

Patterns with an open place.

What is around an open place in a pattern makes a rendering of the rendering that
is put there (`Context.plug`), whatever pattern it comes from (`Context.render_fill`).
A relation between renderings that all constructs keep (`Setting.Surrounding`) is
therefore kept by everything around the place (`Context.plug_related`).
-/

namespace Ostinato

/-- A pattern with one place left open. -/
inductive Context where
  | here
  | sequence (before : List Pattern) (inner : Context) (after : List Pattern)
  | parallel (before : List Pattern) (inner : Context) (after : List Pattern)
  | transform (inner : Context) (name : String) (operands : List Value)
  | euclidean (steps pulses rotation : Int) (inner : Context)
  | modulation (inner : Context) (amount rate : Value)
  | operation (inner : Context) (sign : String) (operand : Value)

namespace Context

/-- The pattern with the place filled. -/
def fill (p : Pattern) : Context → Pattern
  | here => p
  | sequence before inner after => .sequence (before ++ inner.fill p :: after)
  | parallel before inner after => .parallel (before ++ inner.fill p :: after)
  | transform inner name operands => .transform (inner.fill p) name operands
  | euclidean steps pulses rotation inner => .euclidean steps pulses rotation (inner.fill p)
  | modulation inner amount rate => .modulation (inner.fill p) amount rate
  | operation inner sign operand => .operation (inner.fill p) sign operand

/-- Whether what is above the open place uses no more than a fragment allows.  What
is beside it may use anything. -/
def Within (F : Fragment) (known : Registry Transform) : Context → Prop
  | here => True
  | sequence _ inner _ => inner.Within F known
  | parallel _ inner _ => inner.Within F known
  | transform inner name operands =>
    inner.Within F known ∧ F.Names known name ∧ Value.LastWithin F known operands
  | euclidean _ _ _ inner => inner.Within F known
  | modulation inner _ _ => F.sliding ∧ inner.Within F known
  | operation inner _ _ => inner.Within F known

variable {σ : Type}

/-- The rendering that the pattern makes of one in the open place. -/
def plug (s : Setting σ) (r : Rendering σ) : Context → Rendering σ
  | here => r
  | sequence before inner after =>
    Rendering.sequence (Pattern.renderAll s before ++ inner.plug s r :: Pattern.renderAll s after)
  | parallel before inner after =>
    Rendering.parallel s.choose
      (Pattern.renderAll s before ++ inner.plug s r :: Pattern.renderAll s after)
  | transform inner name operands =>
    s.applyNamed name operands (s.lastCalled operands) (inner.plug s r)
  | euclidean steps pulses rotation inner =>
    Rendering.euclidean steps pulses rotation (inner.plug s r)
  | modulation inner amount rate => Rendering.modulated amount rate (inner.plug s r)
  | operation inner sign operand => Rendering.operated false sign operand (inner.plug s r)

/-- Only a leaf alone can be a number. -/
theorem isNumberLeaf_fill {p : Pattern} (hp : p.isNumberLeaf = false) (C : Context) :
    (C.fill p).isNumberLeaf = false := by
  cases C with
  | here => exact hp
  | _ => rfl

/-- A filled pattern renders as what is around the place makes of the rendering that
fills it.  The induction goes down to the place, through one construct at a time.  A
numeral is excluded because arithmetic on one is computed where it stands. -/
theorem render_fill (s : Setting σ) {p : Pattern} (hp : p.isNumberLeaf = false) (C : Context) :
    (C.fill p).render s = C.plug s (p.render s) := by
  have hbeside : ∀ (before : List Pattern) (q : Pattern) (after : List Pattern),
      Pattern.renderAll s (before ++ q :: after) =
        Pattern.renderAll s before ++ q.render s :: Pattern.renderAll s after := by
    intro before q after
    simp only [Pattern.renderAll_eq_map, List.map_append, List.map_cons]
  induction C with
  | here => rfl
  | sequence before inner after ih | parallel before inner after ih =>
    rw [fill, plug, Pattern.render, hbeside, ih]
  | operation inner sign operand ih =>
    rw [fill, plug, Pattern.render, ih, isNumberLeaf_fill hp]
  | transform inner _ _ ih | euclidean _ _ _ inner ih | modulation inner _ _ ih =>
    rw [fill, plug, Pattern.render, ih]

end Context

/-! ## Related renderings -/

variable {σ : Type}

/-- A relation between renderings that everything around an open place keeps, as far
as a fragment makes use of it. -/
structure Setting.Surrounding (s : Setting σ) (F : Fragment)
    (R : Rendering σ → Rendering σ → Prop) : Prop extends s.Acting F R where
  sequence : ∀ before after r r', R r r' →
    R (Rendering.sequence (before ++ r :: after)) (Rendering.sequence (before ++ r' :: after))
  parallel : ∀ before after r r', R r r' →
    R (Rendering.parallel s.choose (before ++ r :: after))
      (Rendering.parallel s.choose (before ++ r' :: after))
  euclidean : ∀ steps pulses rotation r r', R r r' →
    R (Rendering.euclidean steps pulses rotation r) (Rendering.euclidean steps pulses rotation r')
  calculated : ∀ op operand r r', R r r' →
    R (Rendering.calculated op operand r) (Rendering.calculated op operand r')
  modulated : F.sliding → ∀ amount rate r r', R r r' →
    R (Rendering.modulated amount rate r) (Rendering.modulated amount rate r')

variable {s : Setting σ} {F : Fragment} {R : Rendering σ → Rendering σ → Prop} {r r' : Rendering σ}

/-- Renderings that are related are related after what is around the place is put
around both.  The induction goes down to the place. -/
theorem Context.plug_related (h : s.Surrounding F R) (hr : R r r') {C : Context}
    (hC : C.Within F s.transforms) : R (C.plug s r) (C.plug s r') := by
  induction C with
  | here => exact hr
  | sequence before inner after ih => exact h.sequence _ _ _ _ (ih hC)
  | parallel before inner after ih => exact h.parallel _ _ _ _ (ih hC)
  | transform inner name operands ih =>
    have hinner := ih hC.1
    exact h.applyNamed hC.2.1 operands (h.lastCalled hinner operands hC.2.2) hinner
  | euclidean steps pulses rotation inner ih => exact h.euclidean _ _ _ _ _ (ih hC)
  | modulation inner amount rate ih => exact h.modulated hC.1 _ _ _ _ (ih hC.2)
  | operation inner sign operand ih =>
    have hinner := ih hC
    exact h.operated false sign (fun op => h.calculated op operand _ _ hinner) hinner

end Ostinato
