import StepLoom.Proofs.Condition.Syntax

/-!
# Conditions with other names

Names in a condition may be exchanged for others, quoted texts may change, and further fields may be
selected on the way to a field. What could be read as an expression still can.

**Theorem (`Reads.renamed`).** A phrase that can be read can be read after such changes.
-/

namespace StepLoom

namespace Condition

/-- A word may stand in the place of another one. -/
structure WordLike (w w' : List Char) : Prop where
  name : isName w → isName w'
  reference : IsReference w → IsReference w'
  constant : IsConstant w → IsConstant w'

/-- A token may stand in the place of another one. -/
inductive Like : Token → Token → Prop
  | same (t : Token) : Like t t
  | text (cs cs' : List Char) : Like (.text cs) (.text cs')
  | word {w w' : List Char} (h : WordLike w w') : Like (.word w) (.word w')

/-- Tokens with others in their places, and with more fields before dots. -/
inductive Renamed : List Token → List Token → Prop
  | nil : Renamed [] []
  | cons {t t' : Token} {ts ts' : List Token} (ht : Like t t') (h : Renamed ts ts') :
      Renamed (t :: ts) (t' :: ts')
  | insert {w : List Char} {ts ts' : List Token} (hw : isName w) (h : Renamed (.dot :: ts) ts') :
      Renamed (.dot :: ts) (.dot :: .word w :: ts')

/-- A phrase that is read in the place of another one. -/
inductive Phrase.Like : Phrase → Phrase → Prop
  | level (n : Nat) : Phrase.Like (.level n) (.level n)
  | more (n : Nat) (a a' : Expr) : Phrase.Like (.more n a) (.more n a')
  | primary : Phrase.Like .primary .primary
  | selection (a a' : Expr) : Phrase.Like (.selection a) (.selection a')
  | arguments (f f' : List Char) (done done' : List Expr) :
      Phrase.Like (.arguments f done) (.arguments f' done')

variable {t t' : Token} {ts ts' us us' rest : List Token} {w w' : List Char} {e : Expr}
  {p p' : Phrase}

theorem Renamed.refl (ts : List Token) : Renamed ts ts := by
  induction ts with
  | nil => exact .nil
  | cons t ts ih => exact .cons (.same t) ih

theorem Renamed.append (h : Renamed ts ts') (h' : Renamed us us') :
    Renamed (ts ++ us) (ts' ++ us') := by
  induction h with
  | nil => exact h'
  | cons ht _ ih => exact .cons ht ih
  | insert hw _ ih => exact .insert hw ih

theorem WordLike.refl (w : List Char) : WordLike w w := ⟨id, id, id⟩

/-! ## What comes first -/

/-- The token stays as it is, and nothing is put before it. -/
def Token.isFixed : Token → Bool
  | .word _ | .text _ | .dot => false
  | _ => true

theorem Renamed.of_fixed (h : Renamed (t :: ts) us) (ht : t.isFixed) :
    ∃ ts', us = t :: ts' ∧ Renamed ts ts' := by
  cases h with
  | cons hlike hrest =>
    cases hlike with
    | same => exact ⟨_, rfl, hrest⟩
    | text => cases ht
    | word => cases ht
  | insert => cases ht

theorem Renamed.of_word (h : Renamed (.word w :: ts) us) :
    ∃ w' ts', us = .word w' :: ts' ∧ WordLike w w' ∧ Renamed ts ts' := by
  cases h with
  | cons hlike hrest =>
    cases hlike with
    | same => exact ⟨w, _, rfl, .refl w, hrest⟩
    | word hw => exact ⟨_, _, rfl, hw, hrest⟩

theorem Renamed.of_text {cs : List Char} (h : Renamed (.text cs :: ts) us) :
    ∃ cs' ts', us = .text cs' :: ts' ∧ Renamed ts ts' := by
  cases h with
  | cons hlike hrest => cases hlike <;> exact ⟨_, _, rfl, hrest⟩

/-- A dot, maybe after more fields. -/
theorem Renamed.of_dot {motive : List Token → Prop} (h : Renamed (.dot :: ts) us)
    (hcons : ∀ ts', Renamed ts ts' → motive (.dot :: ts'))
    (hinsert : ∀ w ts', isName w → motive ts' → motive (.dot :: .word w :: ts')) : motive us := by
  generalize hall : Token.dot :: ts = all at h
  induction h with
  | nil => cases hall
  | cons hlike hrest _ =>
    obtain ⟨rfl, rfl⟩ := List.cons.inj hall
    cases hlike with
    | same => exact hcons _ hrest
  | insert hw _ ih => exact hinsert _ _ hw (ih hall)

/-- What cannot come next cannot come next afterwards either. -/
theorem Renamed.head?_ne (h : Renamed ts us) (ht : ts.head? ≠ some t)
    (hkind : t.isFixed ∨ t = .dot) : us.head? ≠ some t := by
  intro hus
  cases h with
  | nil => cases hus
  | cons hlike hrest =>
    obtain rfl := Option.some.inj hus
    cases hlike with
    | same => exact ht rfl
    | text => rcases hkind with hkind | hkind <;> cases hkind
    | word => rcases hkind with hkind | hkind <;> cases hkind
  | insert hw hrest => exact ht hus

/-! ## Reading -/

/-- What can be selected behind a dot can still be selected when more fields are put before it. -/
theorem Renamed.reads_dot (h : Renamed (.dot :: ts) us)
    (hread : ∀ ts', Renamed ts ts' → ∀ a, ∃ e' rest', Reads (.selection a) (.dot :: ts') e' rest' ∧
      Renamed rest rest') (a : Expr) :
    ∃ e' rest', Reads (.selection a) us e' rest' ∧ Renamed rest rest' := by
  refine h.of_dot (motive := fun us => ∀ a, ∃ e' rest', Reads (.selection a) us e' rest' ∧
    Renamed rest rest') hread (fun w ts' hw ih a => ?_) a
  obtain ⟨e', rest', h', hrest⟩ := ih (.field a w)
  exact ⟨e', rest', .field hw h', hrest⟩

/-- **What could be read still can.** -/
theorem Reads.renamed (h : Reads p ts e rest) (hts : Renamed ts us) (hp : p.Like p') :
    ∃ e' rest', Reads p' us e' rest' ∧ Renamed rest rest' := by
  induction h generalizing us p' with
  | binary hn ha h iha ih =>
    cases hp with
    | level =>
      obtain ⟨a', mid', ha', hmid⟩ := iha hts (.level _)
      obtain ⟨e', rest', h', hrest⟩ := ih hmid (.more _ _ a')
      exact ⟨e', rest', .binary hn ha' h', hrest⟩
  | more hop hb h ihb ih =>
    cases hp with
    | more n a a' =>
      obtain ⟨ts', rfl, hts'⟩ := hts.of_fixed rfl
      obtain ⟨b', mid', hb', hmid⟩ := ihb hts' (.level _)
      obtain ⟨e', rest', h', hrest⟩ := ih hmid (.more _ _ (.binary _ a' b'))
      exact ⟨e', rest', .more hop hb' h', hrest⟩
  | last hop =>
    cases hp with
    | more n a a' =>
      refine ⟨a', us, .last fun op hus hrank => ?_, hts⟩
      exact hts.head?_ne (fun he => hop op he hrank) (Or.inl rfl) hus
  | not h ih =>
    cases hp with
    | level =>
      obtain ⟨ts', rfl, hts'⟩ := hts.of_fixed rfl
      obtain ⟨e', rest', h', hrest⟩ := ih hts' (.level _)
      exact ⟨.not e', rest', .not h', hrest⟩
  | operand ha h iha ih =>
    cases hp with
    | level =>
      obtain ⟨a', mid', ha', hmid⟩ := iha hts .primary
      obtain ⟨e', rest', h', hrest⟩ := ih hmid (.selection _ a')
      exact ⟨e', rest', .operand ha' h', hrest⟩
  | constant hw =>
    cases hp with
    | primary =>
      obtain ⟨w', ts', rfl, hlike, hts'⟩ := hts.of_word
      exact ⟨_, ts', .constant (hlike.constant hw), hts'⟩
  | text =>
    cases hp with
    | primary =>
      obtain ⟨cs', ts', rfl, hts'⟩ := hts.of_text
      exact ⟨_, ts', .text, hts'⟩
  | name hw hopen =>
    cases hp with
    | primary =>
      obtain ⟨w', ts', rfl, hlike, hts'⟩ := hts.of_word
      exact ⟨_, ts', .name (hlike.reference hw) (hts'.head?_ne hopen (Or.inl rfl)), hts'⟩
  | paren h ih =>
    cases hp with
    | primary =>
      obtain ⟨ts', rfl, hts'⟩ := hts.of_fixed rfl
      obtain ⟨e', mid', h', hmid⟩ := ih hts' (.level _)
      obtain ⟨rest', rfl, hrest⟩ := hmid.of_fixed rfl
      exact ⟨e', rest', .paren h', hrest⟩
  | call₀ hf =>
    cases hp with
    | primary =>
      obtain ⟨f', ts', rfl, hlike, hts'⟩ := hts.of_word
      obtain ⟨mid', rfl, hmid⟩ := hts'.of_fixed rfl
      obtain ⟨rest', rfl, hrest⟩ := hmid.of_fixed rfl
      exact ⟨_, rest', .call₀ (hlike.reference hf), hrest⟩
  | call hf h ih =>
    cases hp with
    | primary =>
      obtain ⟨f', ts', rfl, hlike, hts'⟩ := hts.of_word
      obtain ⟨mid', rfl, hmid⟩ := hts'.of_fixed rfl
      obtain ⟨e', rest', h', hrest⟩ := ih hmid (.arguments _ f' _ [])
      exact ⟨e', rest', .call (hlike.reference hf) h', hrest⟩
  | argument ha h iha ih =>
    cases hp with
    | arguments f f' done done' =>
      obtain ⟨a', mid', ha', hmid⟩ := iha hts (.level _)
      obtain ⟨more', rfl, hmore⟩ := hmid.of_fixed rfl
      obtain ⟨e', rest', h', hrest⟩ := ih hmore (.arguments _ f' _ (done' ++ [a']))
      exact ⟨e', rest', .argument ha' h', hrest⟩
  | lastArgument ha iha =>
    cases hp with
    | arguments f f' done done' =>
      obtain ⟨a', mid', ha', hmid⟩ := iha hts (.level _)
      obtain ⟨rest', rfl, hrest⟩ := hmid.of_fixed rfl
      exact ⟨_, rest', .lastArgument ha', hrest⟩
  | field hw h ih =>
    cases hp with
    | selection a a' =>
      refine hts.reads_dot (fun us hus a' => ?_) a'
      obtain ⟨w', ts', rfl, hlike, hts'⟩ := hus.of_word
      obtain ⟨e', rest', h', hrest⟩ := ih hts' (.selection _ (.field a' w'))
      exact ⟨e', rest', .field (hlike.name hw) h', hrest⟩
  | eachField h ih =>
    cases hp with
    | selection a a' =>
      refine hts.reads_dot (fun us hus a' => ?_) a'
      obtain ⟨ts', rfl, hts'⟩ := hus.of_fixed rfl
      obtain ⟨e', rest', h', hrest⟩ := ih hts' (.selection _ (.each a'))
      exact ⟨e', rest', .eachField h', hrest⟩
  | eachIndex h ih =>
    cases hp with
    | selection a a' =>
      obtain ⟨mid', rfl, hmid⟩ := hts.of_fixed rfl
      obtain ⟨more', rfl, hmore⟩ := hmid.of_fixed rfl
      obtain ⟨ts', rfl, hts'⟩ := hmore.of_fixed rfl
      obtain ⟨e', rest', h', hrest⟩ := ih hts' (.selection _ (.each a'))
      exact ⟨e', rest', .eachIndex h', hrest⟩
  | index hi h ihi ih =>
    cases hp with
    | selection a a' =>
      obtain ⟨ts', rfl, hts'⟩ := hts.of_fixed rfl
      obtain ⟨i', mid', hi', hmid⟩ := ihi hts' (.level _)
      obtain ⟨more', rfl, hmore⟩ := hmid.of_fixed rfl
      obtain ⟨e', rest', h', hrest⟩ := ih hmore (.selection _ (.index a' i'))
      exact ⟨e', rest', .index hi' h', hrest⟩
  | whole hdot hleft =>
    cases hp with
    | selection a a' =>
      exact ⟨a', us, .whole (hts.head?_ne hdot (Or.inr rfl)) (hts.head?_ne hleft (Or.inl rfl)), hts⟩

end Condition

end StepLoom
