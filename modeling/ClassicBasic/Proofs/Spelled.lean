import ClassicBasic.Dialect.Charset
import ClassicBasic.Dialect.Grammar

/-!
# The vocabulary letter by letter

The tables of a dialect hold their words as strings. Facts that are checked entry by entry are checked
on the same tables with the words spelled out: the letters are taken out of the strings once, here.
-/

set_option autoImplicit false

namespace ClassicBasic.Dialect

structure Spelled (d : Dialect) where
  rules : List Rule
  words : List Text
  form : NumberForm
  -- one equation, since the tables share most of their words
  spells : (d.grammar, d.reservedWords, d.numberForm) = (rules, words, form)

def spelled : (d : Dialect) → d.Spelled
  | .msx => ⟨_, _, _, by
      conv =>
        lhs
        simp (disch := decide +kernel) only [grammar, classicRules, reservedWords, stopWords, instructions,
          textFunctions, functions, jumps, operators, symbols, Text.ofAscii_eq]
        cbv⟩
  | .coco => ⟨_, _, _, by
      conv =>
        lhs
        simp (disch := decide +kernel) only [grammar, classicRules, reservedWords, stopWords, instructions,
          textFunctions, functions, jumps, operators, symbols, Text.ofAscii_eq]
        cbv⟩

theorem grammar_spelled (d : Dialect) : d.grammar = d.spelled.rules :=
  congrArg Prod.fst d.spelled.spells

theorem reservedWords_spelled (d : Dialect) : d.reservedWords = d.spelled.words :=
  congrArg (fun tables => tables.2.1) d.spelled.spells

theorem numberForm_spelled (d : Dialect) : d.numberForm = d.spelled.form :=
  congrArg (fun tables => tables.2.2) d.spelled.spells

theorem classify_spelled (d : Dialect) (t : Text) :
    d.classify t = (d.spelled.rules.find? (·.shape.accepts t)).map Rule.kind := by
  rw [classify, grammar_spelled]

theorem length_upperHalf (d : Dialect) : d.upperHalf.length ≤ 0x80 := by
  cases d <;> decide +kernel

end ClassicBasic.Dialect
