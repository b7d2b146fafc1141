import Uranus.Rlp.Decoder

/-!
# Fuel only bounds the decoder's loops

The decoder's slice loop is given fuel, and a run that exhausts it fails with
{lit}`outOfFuel`.  With more fuel every run gives the same result, unless it ran out
before: a decoder with more fuel refines the one with less.  A result other than
{lit}`outOfFuel` is therefore the result of the Go code, which has no fuel.

Main results:

- Theorem {lit}`makeDecoder_refines`: more fuel refines less, for every type.
- Theorem {lit}`DecodeBytes_of_fuel_le`: a result reached with some fuel is reached
  with all more.
-/

namespace Uranus
namespace Rlp

/-- A stream result that ran out of fuel, or equals another. -/
def ResultRefines {α : Type} (r₁ r₂ : EStateM.Result CodecError Stream α) : Prop :=
  (∃ s, r₁ = .error .outOfFuel s) ∨ r₁ = r₂

/-- A stream operation whose every run ran out of fuel or agrees with another's. -/
def Refines {α : Type} (m₁ m₂ : StreamM α) : Prop := ∀ s, ResultRefines (m₁ s) (m₂ s)

variable {α β : Type}

/-- Every stream operation refines itself. -/
theorem Refines.refl (m : StreamM α) : Refines m m := fun _ => .inr rfl

/-- Refinement goes through a bind, when the continuations refine each other. -/
theorem Refines.bind {m₁ m₂ : StreamM α} {f₁ f₂ : α → StreamM β} (hm : Refines m₁ m₂)
    (hf : ∀ a, Refines (f₁ a) (f₂ a)) : Refines (m₁ >>= f₁) (m₂ >>= f₂) := by
  intro s
  show ResultRefines (EStateM.bind m₁ f₁ s) (EStateM.bind m₂ f₂ s)
  unfold EStateM.bind
  rcases hm s with ⟨s', h⟩ | h
  · exact .inl ⟨s', by rw [h]⟩
  · rw [← h]
    cases m₁ s with
    | ok a s' => exact hf a s'
    | error e s' => exact .inr rfl

/-- Changing the error keeps refinement, when the change keeps {lit}`outOfFuel`. -/
theorem Refines.mapError {m₁ m₂ : StreamM α} (hm : Refines m₁ m₂) {f : CodecError → CodecError}
    (hf : f .outOfFuel = .outOfFuel) : Refines (mapError f m₁) (mapError f m₂) := by
  intro s
  unfold Rlp.mapError
  rcases hm s with ⟨s', h⟩ | h
  · exact .inl ⟨s', by rw [h]; simp [hf]⟩
  · exact .inr (by rw [h])

/-- Refinement goes through a map. -/
theorem Refines.map {m₁ m₂ : StreamM α} (hm : Refines m₁ m₂) (f : α → β) :
    Refines (f <$> m₁) (f <$> m₂) := by
  intro s
  show ResultRefines (EStateM.map f m₁ s) (EStateM.map f m₂ s)
  unfold EStateM.map
  rcases hm s with ⟨s', h⟩ | h
  · exact .inl ⟨s', by rw [h]⟩
  · exact .inr (by rw [h])

/-- A round of a loop refines another when its element decoder and its
continuation do. -/
theorem Refines.loopStep {d₁ d₂ : Decoder} (hd : Refines d₁ d₂)
    {onEOL : Stream → EStateM.Result CodecError Stream β} {ctx : CodecError → CodecError}
    (hctx : ctx .outOfFuel = .outOfFuel) {r₁ r₂ : Val → StreamM β} (hr : ∀ v, Refines (r₁ v) (r₂ v)) :
    Refines (loopStep d₁ onEOL ctx r₁) (loopStep d₂ onEOL ctx r₂) := by
  intro s
  unfold Rlp.loopStep
  rcases hd s with ⟨s', h⟩ | h
  · exact .inl ⟨s', by rw [h]; simp [hctx]⟩
  · rw [h]
    cases d₂ s with
    | ok v s' => exact hr v s'
    | error e s' =>
      -- both sides stop alike; the match needs the error's constructor to reduce
      cases e <;> exact .inr rfl

/-- {lit}`wrapStreamError` keeps the out-of-fuel error. -/
@[simp]
theorem wrapStreamError_outOfFuel (typ : Ty) : wrapStreamError typ .outOfFuel = .outOfFuel := rfl

/-- {lit}`addErrorContext` keeps the out-of-fuel error. -/
@[simp]
theorem addErrorContext_outOfFuel (ctx : String) : addErrorContext ctx .outOfFuel = .outOfFuel := rfl

/-! ## The loops -/

/-- The slice loop with fewer rounds and a refining element decoder refines the one with more. -/
theorem decodeSliceElems_refines {d₁ d₂ : Decoder} (hd : Refines d₁ d₂) :
    ∀ {n m : Nat}, n ≤ m → ∀ i, Refines (decodeSliceElems d₁ n i) (decodeSliceElems d₂ m i)
  | 0, _, _, _ => fun s => .inl ⟨s, rfl⟩
  | _ + 1, 0, h, _ => absurd h (by omega)
  | n + 1, m + 1, h, i => by
    simp only [decodeSliceElems]
    exact hd.loopStep (by simp) fun v => (decodeSliceElems_refines hd (by omega) (i + 1)).map _

/-- The array loop with a refining element decoder refines the other. -/
theorem arrayElems_refines {d₁ d₂ : Decoder} (hd : Refines d₁ d₂) :
    ∀ (k i : Nat), Refines (arrayElems d₁ k i) (arrayElems d₂ k i)
  | 0, _ => Refines.refl _
  | k + 1, i => by
    simp only [arrayElems]
    exact hd.loopStep (by simp) fun v => (arrayElems_refines hd k (i + 1)).map _

/-- Field decoders of which each refines its counterpart. -/
def FieldsRefine : List (String × Tags × Ty × Decoder) → List (String × Tags × Ty × Decoder) → Prop
  | [], [] => True
  | (n, ts, t, d₁) :: fs, (n', ts', t', d₂) :: gs =>
    n = n' ∧ ts = ts' ∧ t = t' ∧ Refines d₁ d₂ ∧ FieldsRefine fs gs
  | _, _ => False

/-- Decoding a struct with field decoders that refine others refines decoding with them. -/
theorem decodeFields_refines (typ : Ty) :
    ∀ {fs gs : List (String × Tags × Ty × Decoder)}, FieldsRefine fs gs →
      Refines (decodeFields typ fs) (decodeFields typ gs)
  | [], [], _ => Refines.refl _
  | (n, ts, t, d₁) :: fs, (_, _, _, d₂) :: gs, ⟨rfl, rfl, rfl, hd, hrest⟩ => by
    have ih := decodeFields_refines typ hrest
    cases hi : ts.ignored
    · simp only [decodeFields, hi, Bool.false_eq_true, if_false]
      exact hd.loopStep (by simp) fun v => ih.map _
    · -- an ignored field reads nothing
      simp only [decodeFields, hi, if_true]
      exact ih.map _

/-! ## Decoders -/

/-- Decoding a list with fewer rounds and a refining element decoder refines the other. -/
theorem decodeListSlice_refines {d₁ d₂ : Decoder} (hd : Refines d₁ d₂) {n m : Nat} (h : n ≤ m)
    (typ : Ty) : Refines (decodeListSlice d₁ n typ) (decodeListSlice d₂ m typ) := by
  unfold decodeListSlice
  refine (Refines.refl _).bind fun size => ?_
  split
  · exact Refines.refl _
  · exact (decodeSliceElems_refines hd h 0).bind fun _ => Refines.refl _

/-- The optional pointer decoder of a refining decoder refines the other. -/
theorem makeOptionalPtrDecoder_refines {d₁ d₂ : Decoder} (hd : Refines d₁ d₂) :
    Refines (makeOptionalPtrDecoder d₁) (makeOptionalPtrDecoder d₂) := by
  intro s
  unfold makeOptionalPtrDecoder
  cases streamKind s with
  | error e s' => exact .inr rfl
  | ok ks s' =>
    obtain ⟨kind, size⟩ := ks
    dsimp only
    by_cases hc : size = 0 ∧ kind ≠ .Byte
    · rw [if_pos hc, if_pos hc]
      exact .inr rfl
    · rw [if_neg hc, if_neg hc]
      exact (hd.bind fun _ => Refines.refl _) s'

/-- More fuel refines less, for every type and tags. -/
theorem makeDecoder_refines {n m : Nat} (h : n ≤ m) :
    ∀ (t : Ty) (ts : Tags), Refines (makeDecoder n t ts) (makeDecoder m t ts)
  | .uint _, _ => Refines.refl _
  | .bool, _ => Refines.refl _
  | .string, _ => Refines.refl _
  | .bigInt, _ => Refines.refl _
  | .slice elem, ts => by
    have he := makeDecoder_refines h elem .none
    simp only [makeDecoder]
    split
    · exact Refines.refl _
    · split
      · exact (decodeSliceElems_refines he h 0).bind fun _ => Refines.refl _
      · exact decodeListSlice_refines he h _
  | .array _ elem, _ => by
    have he := makeDecoder_refines h elem .none
    simp only [makeDecoder]
    split
    · exact Refines.refl _
    · unfold decodeListArray
      exact (Refines.refl _).bind fun _ => (arrayElems_refines he _ 0).bind fun _ => Refines.refl _
  | .struct fields, _ => by
    simp only [makeDecoder]
    unfold makeStructDecoder
    exact (Refines.refl _).bind fun _ => (decodeFields_refines _ (fieldsRefine fields)).bind
      fun _ => Refines.refl _
  | .ptr elem, ts => by
    have he := makeDecoder_refines h elem .none
    simp only [makeDecoder]
    split
    · exact makeOptionalPtrDecoder_refines he
    · exact he.bind fun _ => Refines.refl _
where
  fieldsRefine : ∀ fs, FieldsRefine (makeDecoder.fieldDecoders n fs) (makeDecoder.fieldDecoders m fs)
    | [] => trivial
    | (_, ts, t) :: fs => ⟨rfl, rfl, rfl, makeDecoder_refines h t ts, fieldsRefine fs⟩

/-- Decoding with less fuel refines decoding with more: it runs out of fuel or gives the same. -/
theorem streamDecode_refines {n m : Nat} (h : n ≤ m) (t : Ty) :
    Refines (streamDecode n t) (streamDecode m t) := by
  unfold streamDecode
  split
  · exact Refines.refl _
  · exact makeDecoder_refines h t .none

/-- What a top-level call reads off a run of the stream: the error, or what {lit}`g`
makes of the value and the stream left. -/
def readResult {α β : Type} (g : α → Stream → Except CodecError β) :
    EStateM.Result CodecError Stream α → Except CodecError β
  | .error e _ => .error e
  | .ok v s => g v s

/-- A result read off a run, other than running out of fuel, is read off every run
that the first refines. -/
theorem ResultRefines.read {r₁ r₂ : EStateM.Result CodecError Stream α} (hr : ResultRefines r₁ r₂)
    (g : α → Stream → Except CodecError β) {r : Except CodecError β} (h₁ : readResult g r₁ = r)
    (hne : r ≠ .error .outOfFuel) : readResult g r₂ = r := by
  rcases hr with ⟨s, rfl⟩ | rfl
  · exact absurd h₁.symm hne
  · exact h₁

/-- {lit}`DecodeBytes` is the stream decoder's result, with the check that nothing is left. -/
theorem DecodeBytes_eq_readResult (fuel : Nat) (t : Ty) (b : Bytes) :
    DecodeBytes fuel t b = readResult (fun v s => if s.input ≠ [] then .error .ErrMoreThanOneValue else .ok v)
      (streamDecode fuel t (Stream.reset b)) := by
  unfold DecodeBytes readResult
  cases streamDecode fuel t (Stream.reset b) <;> rfl

/-- A result other than running out of fuel is reached with every larger fuel. -/
theorem DecodeBytes_of_fuel_le {n m : Nat} (h : n ≤ m) {t : Ty} {b : Bytes}
    {r : Except CodecError Val} (hr : DecodeBytes n t b = r) (hne : r ≠ .error .outOfFuel) :
    DecodeBytes m t b = r := by
  rw [DecodeBytes_eq_readResult] at hr ⊢
  exact (streamDecode_refines h t (Stream.reset b)).read _ hr hne

end Rlp
end Uranus
