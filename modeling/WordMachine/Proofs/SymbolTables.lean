import WordMachine.Proofs.Declarations

/-!
# What the assembler knows of names

The addresses of variables are computed anew whenever a name is used, from all the variables declared
so far, while the code that has been added already holds the addresses of its time.  The two agree
because a name, once it is known, keeps its meaning for good: a constant or a variable that is
declared again is refused, and new variables are only put behind the old ones.

* `Symbols.Tiled`: the variables have different names, and their blocks fill the memory in use
  without gaps, in the order of declaration.
* `Admits`: what a line without a fault can do to the names.
* `Extends`: names that are known keep their meaning.
* `Declared`: where a variable comes from, and that the code of its declaration stores to its block
  only.

`tables_after` says that all of this holds after any lines.
-/

namespace WordMachine

/-! ## Stores inside a block -/

/-- The number of bytes that a store or a load moves. -/
def Width.bytes : Width → Nat
  | .byte => 1
  | .word => 4

/-- A store that changes no byte outside of a block. -/
def Store.Within (start size : Nat) (w : Store) : Prop :=
  start ≤ (Word.bits w.address).toNat ∧
    (Word.bits w.address).toNat + w.width.bytes ≤ start + size

theorem Store.within_of_mem_bytesFrom {start : Nat} {values : List Word} {w : Store}
    (hsmall : start + values.length < 0x80000000) (hw : w ∈ bytesFrom start values) :
    w.Within start values.length := by
  induction values generalizing start with
  | nil => cases hw
  | cons v values ih =>
      rw [List.length_cons] at hsmall ⊢
      rcases List.mem_cons.mp hw with rfl | hw
      · have haddress : (Word.bits (Word.ofCount start)).toNat = start :=
          Word.toNat_bits_ofCount (by omega)
        constructor
        · exact Nat.le_of_eq haddress.symm
        · change (Word.bits (Word.ofCount start)).toNat + 1 ≤ _
          omega
      · obtain ⟨hlower, hupper⟩ := ih (by omega) hw
        exact ⟨by omega, by omega⟩

namespace Assembly

open WordMachine.Text

/-- The stores of a value stay inside the bytes that the value takes up. -/
theorem Contents.within_of_mem_stores {c : Contents} {start : Nat} {w : Store}
    (hsmall : start + c.image.length < 0x80000000) (hw : w ∈ c.stores start) :
    w.Within start c.image.length := by
  cases c with
  | dword value =>
      obtain rfl := List.mem_singleton.mp hw
      have haddress : (Word.bits (Word.ofCount start)).toNat = start :=
        Word.toNat_bits_ofCount (by omega)
      constructor
      · exact Nat.le_of_eq haddress.symm
      · change (Word.bits (Word.ofCount start)).toNat + 4 ≤ start + 4
        omega
  | bytes values =>
      rw [image, List.length_map] at hsmall ⊢
      exact Store.within_of_mem_bytesFrom hsmall hw
  | string text =>
      -- the zero byte behind the text belongs to the block, but is not stored
      rw [image, List.length_append, List.length_singleton] at hsmall ⊢
      have hwithin := Store.within_of_mem_bytesFrom (by rw [List.length_map]; omega) hw
      rw [List.length_map] at hwithin
      exact ⟨hwithin.1, Nat.le_succ_of_le hwithin.2⟩

/-! ## Blocks of variables -/

theorem totalSize_append (vs ws : List Variable) :
    totalSize (vs ++ ws) = totalSize vs + totalSize ws := by
  induction vs with
  | nil => simp [totalSize]
  | cons v vs ih => rw [List.cons_append, totalSize, totalSize, ih, Nat.add_assoc]

namespace Symbols

variable {t : Symbols} {v : Variable} {before later : List Variable} {x : Nat}

/-- An address lies in the block of a variable. -/
def InBlock (t : Symbols) (v : Variable) (x : Nat) : Prop :=
  ∃ start, t.offset? v.name = some start ∧ start ≤ x ∧ x < start + v.size

/-- The blocks of the variables fill the memory in use, in the order of declaration and without
gaps. -/
structure Tiled (t : Symbols) : Prop where
  names : (t.vars.map Variable.name).Nodup
  /-- Every block starts where the blocks before it end. -/
  start : ∀ before v later, t.vars = before ++ v :: later →
    t.offset? v.name = some (totalSize before)
  disjoint : ∀ u ∈ t.vars, ∀ v ∈ t.vars, u ≠ v → ∀ x, t.InBlock u x → ¬ t.InBlock v x
  covered : ∀ x, (∃ v ∈ t.vars, t.InBlock v x) ↔ x < t.usedSpace

theorem inBlock_iff_of_split (hnames : (t.vars.map Variable.name).Nodup)
    (hsplit : t.vars = before ++ v :: later) :
    t.InBlock v x ↔ totalSize before ≤ x ∧ x < totalSize (before ++ [v]) := by
  have hend : totalSize (before ++ [v]) = totalSize before + v.size := by
    rw [totalSize_append]
    rfl
  rw [InBlock, offset?_of_split hnames hsplit, hend]
  constructor
  · rintro ⟨start, hstart, hinside⟩
    cases hstart
    exact hinside
  · intro hinside
    exact ⟨_, rfl, hinside⟩

/-- The memory in use is made up of the blocks. -/
theorem exists_split_of_lt {vs : List Variable} (hlt : x < totalSize vs) :
    ∃ before v later, vs = before ++ v :: later ∧ totalSize before ≤ x ∧
      x < totalSize (before ++ [v]) := by
  induction vs using List.reverseRecOn with
  | nil => cases hlt
  | append_singleton vs v ih =>
      by_cases hbefore : x < totalSize vs
      · obtain ⟨before, u, later, rfl, hinside⟩ := ih hbefore
        exact ⟨before, u, later ++ [v], by simp, hinside⟩
      · exact ⟨vs, v, [], rfl, Nat.le_of_not_lt hbefore, hlt⟩

/-- Of two variables one stands before the other. -/
theorem totalSize_le_of_splits {u v : Variable} {vs ws vs' ws' : List Variable} (hne : u ≠ v)
    (hsplits : vs ++ u :: vs' = ws ++ v :: ws') :
    totalSize (vs ++ [u]) ≤ totalSize ws ∨ totalSize (ws ++ [v]) ≤ totalSize vs := by
  have hsizes (us : List Variable) (w : Variable) (us' : List Variable) :
      totalSize (us ++ [w]) ≤ totalSize (us ++ w :: us') := by
    rw [List.append_cons us w us', totalSize_append (us ++ [w])]
    exact Nat.le_add_right ..
  rcases List.append_eq_append_iff.mp hsplits with ⟨mid, rfl, hmid⟩ | ⟨mid, rfl, hmid⟩
  · cases mid with
    | nil => exact absurd (List.cons.inj hmid).1 hne
    | cons w mid =>
        obtain ⟨rfl, -⟩ := List.cons.inj hmid
        exact Or.inl (hsizes ..)
  · cases mid with
    | nil => exact absurd (List.cons.inj hmid).1.symm hne
    | cons w mid =>
        obtain ⟨rfl, -⟩ := List.cons.inj hmid
        exact Or.inr (hsizes ..)

theorem tiled_of_nodup (hnames : (t.vars.map Variable.name).Nodup) : t.Tiled := by
  refine ⟨hnames, fun before v later hsplit => offset?_of_split hnames hsplit, ?_, ?_⟩
  · intro u hu v hv hne x hinside hinside'
    obtain ⟨before, later, hsplit⟩ := List.append_of_mem hu
    obtain ⟨before', later', hsplit'⟩ := List.append_of_mem hv
    rw [inBlock_iff_of_split hnames hsplit] at hinside
    rw [inBlock_iff_of_split hnames hsplit'] at hinside'
    rcases totalSize_le_of_splits hne (hsplit.symm.trans hsplit') with hle | hle <;> omega
  · intro x
    constructor
    · rintro ⟨v, hv, hinside⟩
      obtain ⟨before, later, hsplit⟩ := List.append_of_mem hv
      have hlt := ((inBlock_iff_of_split hnames hsplit).mp hinside).2
      rw [usedSpace, hsplit, List.append_cons, totalSize_append]
      exact Nat.lt_of_lt_of_le hlt (Nat.le_add_right ..)
    · intro hlt
      obtain ⟨before, v, later, hsplit, hinside⟩ := exists_split_of_lt hlt
      exact ⟨v, hsplit ▸ List.mem_append_right _ (List.mem_cons_self ..),
        (inBlock_iff_of_split hnames hsplit).mpr hinside⟩

theorem nodup_addVariable (hnames : (t.vars.map Variable.name).Nodup)
    (hnew : t.hasVariable v.name = false) :
    ((t.addVariable v).vars.map Variable.name).Nodup := by
  rw [addVariable, List.map_append, List.map_singleton]
  refine List.nodup_append.mpr ⟨hnames, List.pairwise_singleton .., ?_⟩
  intro name hname other hother
  obtain ⟨u, hu, rfl⟩ := List.mem_map.mp hname
  obtain rfl := List.mem_singleton.mp hother
  simpa using List.any_eq_false.mp hnew u hu

/-- Names that are known keep their meaning. -/
structure Extends (t t' : Symbols) : Prop where
  constants : ∀ name value, t.constant? name = some value → t'.constant? name = some value
  offsets : ∀ name start, t.offset? name = some start → t'.offset? name = some start

theorem Extends.refl (t : Symbols) : t.Extends t := ⟨fun _ _ h => h, fun _ _ h => h⟩

theorem Extends.trans {t t' t'' : Symbols} (h : t.Extends t') (h' : t'.Extends t'') :
    t.Extends t'' :=
  ⟨fun name value hname => h'.constants name value (h.constants name value hname),
    fun name start hname => h'.offsets name start (h.offsets name start hname)⟩

theorem extends_addConstant {name : String} (hnew : t.hasConstant name = false) (value : Word) :
    t.Extends (t.addConstant name value) := by
  refine ⟨fun other known hother => ?_, fun _ _ h => h⟩
  have hne : other ≠ name := by
    rintro rfl
    rw [hasConstant, hother] at hnew
    cases hnew
  rw [constant?_addConstant, if_neg hne, hother]

/-- A new variable is put behind those that are known, even if it has the name of one of them. -/
theorem extends_addVariable (t : Symbols) (v : Variable) : t.Extends (t.addVariable v) := by
  refine ⟨fun _ _ h => h, fun name start hname => ?_⟩
  rw [offset?_addVariable, hname, Option.some_or]

end Symbols

/-! ## What a line does -/

/-- What a line without a fault can do.  A name is given a meaning only if it is new, and the code of
a variable makes the stores of its value, which begin at the end of the memory in use. -/
inductive Admits (t : Symbols) : Effect → Prop
  | skip : Admits t .skip
  | emit (words : List Word) : Admits t (.emit words)
  | define (name : String) (value : Word) (hnew : t.hasConstant name = false) :
      Admits t (.define name value)
  | declare (b : Block) (hnew : t.hasVariable b.name = false) :
      Admits t (.declare ⟨b.name, b.contents.image.length⟩
        (Store.code (b.contents.stores t.usedSpace)))

variable {t : Symbols} {raw : List Char} {effect : Effect}

/-- Only a constant directive defines something, and only the name that it has checked. -/
theorem Directive.eq_const_of_read {d : Directive} {name name' : String} {value : List Char}
    {word : Word} (hread : d.read t name value = .ok (.define name' word)) :
    d = .const ∧ name = name' := by
  cases d with
  | const =>
      simp only [Directive.read] at hread
      split at hread <;> cases hread
      exact ⟨rfl, rfl⟩
  | dword =>
      simp only [Directive.read] at hread
      split at hread <;> cases hread
  | bytes =>
      simp only [Directive.read] at hread
      cases hitems : (dropBlankEnd (pieces (· == ',') value)).mapM byteItem <;>
        rw [hitems] at hread <;> cases hread
  | string =>
      simp only [Directive.read] at hread
      split at hread <;> cases hread

theorem hasConstant_of_readDirective {line : List Char} {name : String} {value : Word}
    (hread : readDirective t line = .ok (.define name value)) : t.hasConstant name = false := by
  unfold readDirective at hread
  split at hread
  · cases hread
  · split at hread
    · cases hread
    · split at hread
      · cases hread
      · next htaken =>
        obtain ⟨rfl, rfl⟩ := Directive.eq_const_of_read hread
        exact Bool.eq_false_iff.mpr htaken

theorem admits_of_readDirective {line : List Char} (hline : trim (stripComment raw) = line)
    (hread : readDirective t line = .ok effect) : Admits t effect := by
  have hdeclares := declares_of_readDirective hline hread
  generalize Block.ofLine? raw = block? at hdeclares
  cases hdeclares with
  | skip => exact .skip
  | define name value => exact .define name value (hasConstant_of_readDirective hread)
  | declare b hnew _ => exact .declare b hnew

theorem admits_of_readLine (hread : readLine t raw = .ok effect) : Admits t effect := by
  unfold readLine at hread
  split at hread
  · cases hread
    exact .skip
  · next hline => exact admits_of_readDirective hline hread
  · obtain ⟨words, rfl, -⟩ := emits_of_readInstruction hread
    exact .emit words

namespace Assembler

variable {a : Assembler} {raws : List String} {before : List Variable} {v : Variable}

/-- A line that is at fault does what a blank line does to the names and to the code. -/
theorem exists_admits_feed (a : Assembler) (raw : List Char) :
    ∃ effect, Admits a.symbols effect ∧ (a.feed raw).symbols = (a.apply effect).symbols ∧
      (a.feed raw).words = (a.apply effect).words := by
  cases hread : readLine a.symbols raw with
  | ok effect =>
      refine ⟨effect, admits_of_readLine hread, ?_⟩
      rw [feed_of_ok hread]
      cases effect <;> exact ⟨rfl, rfl⟩
  | error fault =>
      refine ⟨.skip, .skip, ?_⟩
      rw [feed_of_error hread]
      exact ⟨rfl, rfl⟩

theorem extends_apply (hadmits : Admits a.symbols effect) :
    a.symbols.Extends (a.apply effect).symbols := by
  cases hadmits with
  | skip => exact Symbols.Extends.refl _
  | emit words => exact Symbols.Extends.refl _
  | define name value hnew => exact Symbols.extends_addConstant hnew value
  | declare b hnew => exact Symbols.extends_addVariable ..

theorem extends_feed (a : Assembler) (raw : List Char) : a.symbols.Extends (a.feed raw).symbols := by
  obtain ⟨effect, hadmits, hsymbols, -⟩ := exists_admits_feed a raw
  rw [hsymbols]
  exact extends_apply hadmits

theorem extends_after (raws more : List String) :
    (after raws).symbols.Extends (after (raws ++ more)).symbols := by
  induction more using List.reverseRecOn with
  | nil =>
      rw [List.append_nil]
      exact Symbols.Extends.refl _
  | append_singleton more raw ih =>
      rw [← List.append_assoc, after_concat]
      exact ih.trans (extends_feed ..)

theorem nodup_apply (hadmits : Admits a.symbols effect)
    (hnames : (a.symbols.vars.map Variable.name).Nodup) :
    ((a.apply effect).symbols.vars.map Variable.name).Nodup := by
  cases hadmits with
  | skip => exact hnames
  | emit words => exact hnames
  | define name value hnew => exact hnames
  | declare b hnew =>
      exact Symbols.nodup_addVariable hnames hnew

theorem nodup_after (raws : List String) :
    ((after raws).symbols.vars.map Variable.name).Nodup := by
  induction raws using List.reverseRecOn with
  | nil => exact List.nodup_nil
  | append_singleton raws raw ih =>
      obtain ⟨effect, hadmits, hsymbols, -⟩ := exists_admits_feed (after raws) raw.toList
      rw [after_concat, feedLine, hsymbols]
      exact nodup_apply hadmits ih

/-- One of some lines declares a variable, after the lines before it have declared those before the
variable.  The code of the line does nothing but store, and as long as the block of the variable
ends below 2 ^ 31, it stores to this block only. -/
def Declared (raws : List String) (before : List Variable) (v : Variable) : Prop :=
  ∃ earlier raw rest stores, raws = earlier ++ raw :: rest ∧
    (after earlier).symbols.vars = before ∧
    (after (earlier ++ [raw])).symbols.vars = before ++ [v] ∧
    (after (earlier ++ [raw])).words.toList = (after earlier).words.toList ++ Store.code stores ∧
    (totalSize before + v.size < 0x80000000 → ∀ w ∈ stores, w.Within (totalSize before) v.size)

theorem Declared.concat (hdeclared : Declared raws before v) (raw : String) :
    Declared (raws ++ [raw]) before v := by
  obtain ⟨earlier, line, rest, stores, rfl, hline⟩ := hdeclared
  exact ⟨earlier, line, rest ++ [raw], stores, by simp, hline⟩

theorem declared_after (raws : List String) (before : List Variable) (v : Variable)
    (later : List Variable) (hsplit : (after raws).symbols.vars = before ++ v :: later) :
    Declared raws before v := by
  induction raws using List.reverseRecOn generalizing later with
  | nil => cases before <;> cases hsplit
  | append_singleton raws raw ih =>
      obtain ⟨effect, hadmits, hsymbols, hwords⟩ := exists_admits_feed (after raws) raw.toList
      rw [← feedLine, ← after_concat] at hsymbols hwords
      have hsame (hvars : (after (raws ++ [raw])).symbols.vars = (after raws).symbols.vars) :
          Declared (raws ++ [raw]) before v :=
        (ih later (hvars.symm.trans hsplit)).concat raw
      cases hadmits with
      | skip => exact hsame (congrArg Symbols.vars hsymbols)
      | emit words => exact hsame (congrArg Symbols.vars hsymbols)
      | define name value hnew => exact hsame (congrArg Symbols.vars hsymbols :)
      | declare b hnew =>
          have hvars : (after (raws ++ [raw])).symbols.vars =
              (after raws).symbols.vars ++ [⟨b.name, b.contents.image.length⟩] :=
            congrArg Symbols.vars hsymbols
          rcases List.eq_nil_or_concat later with rfl | ⟨later, last, rfl⟩
          · -- the variable is the one that the last line declares
            obtain ⟨rfl, hlast⟩ := List.append_inj' (hvars.symm.trans hsplit) rfl
            obtain rfl := List.singleton_inj.mp hlast
            refine ⟨raws, raw, [], b.contents.stores (after raws).symbols.usedSpace, rfl, rfl, hvars,
              ?_, ?_⟩
            · rw [hwords, words_apply]
              rfl
            · intro hsmall w hw
              exact Contents.within_of_mem_stores hsmall hw
          · rw [hvars, List.concat_eq_append, ← List.cons_append, ← List.append_assoc] at hsplit
            exact (ih later (List.append_inj' hsplit rfl).1).concat raw

/-- The names stay consistent for good.  After any lines the blocks of the variables fill the memory
in use in the order of declaration, the code of each variable stores to its own block only, and
further lines do not change what a name stands for. -/
theorem tables_after (raws : List String) :
    (after raws).symbols.Tiled ∧
      (∀ before v later, (after raws).symbols.vars = before ++ v :: later →
        Declared raws before v) ∧
      ∀ more, (after raws).symbols.Extends (after (raws ++ more)).symbols :=
  ⟨Symbols.tiled_of_nodup (nodup_after raws), declared_after raws, extends_after raws⟩

/-- A number stands behind a text of three bytes for good, and a second declaration of the text is
refused. -/
theorem tables_after_of_redefinition :
    Declared [".string s 'hi'", ".dword n 7", ".dword s 1"] [⟨"s", 3⟩] ⟨"n", 4⟩ ∧
      ∀ more, (after ([".string s 'hi'", ".dword n 7", ".dword s 1"] ++ more)).symbols.offset? "n" =
        some 3 := by
  obtain ⟨-, hdeclared, hextends⟩ := tables_after [".string s 'hi'", ".dword n 7", ".dword s 1"]
  exact ⟨hdeclared [⟨"s", 3⟩] ⟨"n", 4⟩ [] (by decide +kernel),
    fun more => (hextends more).offsets "n" 3 (by decide +kernel)⟩

end Assembler

end Assembly

end WordMachine
