import AmqOs.Print.Console

/-!
# Formatted printing

`printk` goes through its format once and hands characters to `printc`; `printkText` is what it hands over. A format is
spelled by a list of directives, each of them with the arguments that it takes and the text that it stands for
(`Directive.bytes`, `Directive.args`, `Directive.out`), and `printk` prints the texts one after the other, in the colours it
is given (`printk_directives`). Of a format with more than 511 characters, the directives are printed that lie within them.

With `printk` the console is complete: `console_shows` is about every sequence of the functions that print.
-/

set_option autoImplicit false

namespace AmqOs.Print

open AmqOs.Lib

/-! ## Numbers -/

def digitChar (digit : UInt64) : UInt8 := if digit < 10 then 48 + digit.toUInt8 else 97 + (digit - 10).toUInt8

/-- The loop that fills `buf` of `print_unsigned`, while there is room: the digits, the last one first. -/
def lowDigits (base : UInt64) : Nat → UInt64 → List UInt8
  | 0, _ => []
  | room + 1, num => if num > 0 then digitChar (num % base) :: lowDigits base room (num / base) else []

/-- The characters that `print_unsigned` prints. -/
def printUnsigned (num base : UInt64) : List UInt8 := if num = 0 then [48] else (lowDigits base 32 num).reverse

/-- The characters that `print_signed` prints; `-num` of the least number is that number. -/
def printSigned (num : Int64) : List UInt8 :=
  if num < 0 then 45 :: printUnsigned (-num).toUInt64 10 else printUnsigned num.toUInt64 10

/-! ## The format -/

/-- The characters that `safe_print_str` prints. -/
def safePrintStr : Option CString → List UInt8
  | none => [40, 110, 117, 108, 108, 41]
  | some str => (str.take 255).map (·.val)

/-- What `va_arg` takes: an eight-byte slot with a number, or a pointer to a string. -/
inductive Arg where
  | word (w : UInt64)
  | str (s : Option CString)

/-- The flag `l` or `ll`: whether it is there, and the format behind it. -/
def lengthFlag : List UInt8 → Bool × List UInt8
  | [] => (false, [])
  | c :: fmt =>
    if c = 'l'.toUInt8 then
      match fmt with
      | [] => (true, [])
      | c' :: fmt' => if c' = 'l'.toUInt8 then (true, fmt') else (true, fmt)
    else (false, c :: fmt)

/-- The `switch`; `none` where `va_arg` has no argument of the type that it is asked for. -/
def convert (isLonglong : Bool) (c : UInt8) (args : List Arg) : Option (List UInt8 × List Arg) :=
  if c = 's'.toUInt8 then
    match args with
    | .str s :: args => some (safePrintStr s, args)
    | _ => none
  else if c = 'd'.toUInt8 then
    match args with
    | .word w :: args => some (printSigned (if isLonglong then w.toInt64 else w.toUInt32.toInt32.toInt64), args)
    | _ => none
  else if c = 'u'.toUInt8 then
    match args with
    | .word w :: args => some (printUnsigned (if isLonglong then w else w.toUInt32.toUInt64) 10, args)
    | _ => none
  else if c = 'x'.toUInt8 ∨ c = 'X'.toUInt8 then
    match args with
    | .word w :: args => some (printUnsigned (if isLonglong then w else w.toUInt32.toUInt64) 16, args)
    | _ => none
  else if c = 'p'.toUInt8 then
    match args with
    | .word w :: args => some (48 :: 120 :: printUnsigned w 16, args)
    | _ => none
  else if c = 'c'.toUInt8 then
    match args with
    | .word w :: args => some ([w.toUInt8], args)
    | _ => none
  else if c = '%'.toUInt8 then some (['%'.toUInt8], args)
  else some (['%'.toUInt8, c], args)

theorem length_lengthFlag_le (fmt : List UInt8) : (lengthFlag fmt).2.length ≤ fmt.length := by
  unfold lengthFlag
  split
  · exact Nat.le_refl _
  · split
    · split
      · exact Nat.zero_le _
      · split
        · simp only [List.length_cons]
          omega
        · simp
    · exact Nat.le_refl _

/-- The loop of `printk`: the characters that are printed. -/
def printkLoop : List UInt8 → List Arg → Option (List UInt8)
  | [], _ => some []
  | c :: fmt, args =>
    if c ≠ '%'.toUInt8 then (printkLoop fmt args).map (c :: ·)
    else
      match _ : lengthFlag fmt with
      | (_, []) => some []
      | (isLonglong, c :: fmt') =>
        match convert isLonglong c args with
        | none => none
        | some (text, args) => (printkLoop fmt' args).map (text ++ ·)
termination_by fmt => fmt.length
decreasing_by
  · simp
  · rename_i hflag
    have h := length_lengthFlag_le fmt
    rw [hflag] at h
    simp only [List.length_cons] at h ⊢
    omega

def printkText (format : CString) (args : List Arg) : Option (List UInt8) :=
  printkLoop ((format.map (·.val)).take 511) args

/-- `none` where the arguments do not suit the format. -/
def printk (isgui : Bool) (s : Screen) (textFg textBg : UInt32) (format : Option CString) (args : List Arg) :
    Option Screen :=
  match format with
  | none => some s
  | some format =>
    (printkText format args).map fun text =>
      setColors (text.foldl (printc isgui) (setColors s textFg textBg)) s.cursor.fgColor s.cursor.bgColor

/-! ## Directives -/

/-- The digits of a number, the first one first. -/
def numeral (base n : Nat) : List UInt8 :=
  if n = 0 then [48] else ((Nat.digits base n).map fun d => digitChar (.ofNat d)).reverse

inductive Length where
  | int
  | long
  | longLong

/-- What is printed for a conversion, with its arguments. -/
inductive Conversion where
  | s (str : Option CString)
  | d (w : UInt64)
  | u (w : UInt64)
  | x (w : UInt64)
  | X (w : UInt64)
  | p (w : UInt64)
  | c (w : UInt64)
  | percent
  | other (c : UInt8)

inductive Directive where
  | lit (c : UInt8)
  | conv (l : Length) (k : Conversion)

def Length.bytes : Length → List UInt8
  | .int => []
  | .long => ['l'.toUInt8]
  | .longLong => ['l'.toUInt8, 'l'.toUInt8]

/-- An `int` has the low half of its slot. -/
def Length.signed : Length → UInt64 → Int
  | .int, w => w.toUInt32.toInt32.toInt
  | _, w => w.toInt64.toInt

def Length.unsigned : Length → UInt64 → Nat
  | .int, w => w.toUInt32.toNat
  | _, w => w.toNat

namespace Conversion

def char : Conversion → UInt8
  | s _ => 's'.toUInt8
  | d _ => 'd'.toUInt8
  | u _ => 'u'.toUInt8
  | x _ => 'x'.toUInt8
  | X _ => 'X'.toUInt8
  | p _ => 'p'.toUInt8
  | .c _ => 'c'.toUInt8
  | percent => '%'.toUInt8
  | other ch => ch

def args : Conversion → List Arg
  | s str => [.str str]
  | d w | u w | x w | X w | p w | .c w => [.word w]
  | percent | other _ => []

/-- The text for a conversion. `%X` has small letters, and `%p` is a hexadecimal number. -/
def out (l : Length) : Conversion → List UInt8
  | s none => [40, 110, 117, 108, 108, 41]
  | s (some str) => (str.take 255).map (·.val)
  | d w => (if l.signed w < 0 then [45] else []) ++ numeral 10 (l.signed w).natAbs
  | u w => numeral 10 (l.unsigned w)
  | x w | X w => numeral 16 (l.unsigned w)
  | p w => 48 :: 120 :: numeral 16 w.toNat
  | .c w => [w.toUInt8]
  | percent => [37]
  | other ch => [37, ch]

end Conversion

namespace Directive

def bytes : Directive → List UInt8
  | lit c => [c]
  | conv l k => '%'.toUInt8 :: (l.bytes ++ [k.char])

def args : Directive → List Arg
  | lit _ => []
  | conv _ k => k.args

def out : Directive → List UInt8
  | lit c => [c]
  | conv l k => k.out l

/-- A literal character does not start a conversion, and no conversion has the character of another one. -/
def Ok : Directive → Prop
  | lit c => c ≠ '%'.toUInt8
  | conv _ (.other c) => c ∉ ['l', 's', 'd', 'u', 'x', 'X', 'p', 'c', '%'].map Char.toUInt8
  | conv _ _ => True

/-- The directives that lie within the first `n` characters. -/
def fitting : Nat → List Directive → List Directive
  | _, [] => []
  | n, d :: ds => if d.bytes.length ≤ n then d :: fitting (n - d.bytes.length) ds else []

end Directive

/-! ## Numerals -/

theorem lowDigits_eq {base num : UInt64} {room : Nat} (hb : 1 < base.toNat) (h : num.toNat < base.toNat ^ room) :
    lowDigits base room num = (Nat.digits base.toNat num.toNat).map fun d => digitChar (.ofNat d) := by
  induction room generalizing num with
  | zero =>
    have : num.toNat = 0 := by simpa using h
    rw [this]
    simp [lowDigits]
  | succ room ih =>
    unfold lowDigits
    split
    · rename_i hpos
      have hpos : 0 < num.toNat := UInt64.lt_iff_toNat_lt.mp hpos
      have hdiv : (num / base).toNat = num.toNat / base.toNat := UInt64.toNat_div ..
      have hmod : num % base = .ofNat (num.toNat % base.toNat) := by
        apply UInt64.toNat_inj.mp
        have hlt := lt_of_le_of_lt (Nat.mod_le num.toNat base.toNat) num.toNat_lt
        rw [UInt64.toNat_mod, UInt64.toNat_ofNat', Nat.mod_eq_of_lt hlt]
      rw [Nat.digits_def' hb hpos, List.map_cons, ih, hdiv, hmod]
      rw [hdiv, Nat.div_lt_iff_lt_mul (by omega), ← Nat.pow_succ]
      exact h
    · rename_i hpos
      have hzero : num.toNat = 0 := by
        have := mt UInt64.lt_iff_toNat_lt.mpr hpos
        simpa using this
      rw [hzero]
      simp

theorem printUnsigned_eq (num : UInt64) {base : UInt64} (hb : 4 ≤ base.toNat) :
    printUnsigned num base = numeral base.toNat num.toNat := by
  have hzero : num = 0 ↔ num.toNat = 0 := by rw [← UInt64.toNat_inj]; rfl
  unfold printUnsigned numeral
  simp only [hzero]
  split
  · rfl
  · have hpow : num.toNat < base.toNat ^ 32 :=
      lt_of_lt_of_le num.toNat_lt (le_trans (by norm_num) (Nat.pow_le_pow_left hb 32))
    rw [lowDigits_eq (by omega) hpow]

/-- The number that a word stands for. -/
theorem toInt_eq (num : Int64) :
    num.toInt = if 2 * num.toUInt64.toNat < 2 ^ 64 then (num.toUInt64.toNat : Int) else num.toUInt64.toNat - 2 ^ 64 :=
  BitVec.toInt_eq_toNat_cond num.toBitVec

theorem toNat_neg (num : Int64) : (-num).toUInt64.toNat = (2 ^ 64 - num.toUInt64.toNat) % 2 ^ 64 :=
  BitVec.toNat_neg num.toBitVec

theorem printSigned_eq (num : Int64) :
    printSigned num = (if num.toInt < 0 then [45] else []) ++ numeral 10 num.toInt.natAbs := by
  have hword := toInt_eq num
  have hlt := num.toUInt64.toNat_lt
  have hneg : num < 0 ↔ num.toInt < 0 := Int64.lt_iff_toInt_lt
  unfold printSigned
  simp only [hneg]
  split
  · rename_i hlo
    have habs : (-num).toUInt64.toNat = num.toInt.natAbs := by
      rw [toNat_neg]
      omega
    rw [printUnsigned_eq _ (by decide), habs]
    rfl
  · rename_i hlo
    have habs : num.toUInt64.toNat = num.toInt.natAbs := by omega
    rw [printUnsigned_eq _ (by decide), habs]
    rfl

/-! ## The loop -/

section Loop

variable {fmt : List UInt8} {rest : List Arg}

def Length.isLong : Length → Bool
  | .int => false
  | _ => true

theorem lengthFlag_bytes (l : Length) {c : UInt8} (hc : c ≠ 'l'.toUInt8) :
    lengthFlag (l.bytes ++ c :: fmt) = (l.isLong, c :: fmt) := by
  cases l with
  | int =>
    exact if_neg hc
  | long =>
    show (if c = 'l'.toUInt8 then (true, fmt) else (true, c :: fmt)) = _
    rw [if_neg hc]
    rfl
  | longLong => rfl

theorem signed_eq (l : Length) (w : UInt64) :
    printSigned (if l.isLong then w.toInt64 else w.toUInt32.toInt32.toInt64) =
      (if l.signed w < 0 then [45] else []) ++ numeral 10 (l.signed w).natAbs := by
  rw [printSigned_eq]
  cases l
  · show (if w.toUInt32.toInt32.toInt64.toInt < 0 then [45] else []) ++ numeral 10 w.toUInt32.toInt32.toInt64.toInt.natAbs = _
    rw [Int32.toInt_toInt64]
    rfl
  · rfl
  · rfl

theorem unsigned_eq (l : Length) (w : UInt64) {base : UInt64} (hb : 4 ≤ base.toNat) :
    printUnsigned (if l.isLong then w else w.toUInt32.toUInt64) base = numeral base.toNat (l.unsigned w) := by
  rw [printUnsigned_eq _ hb]
  cases l
  · show numeral base.toNat w.toUInt32.toUInt64.toNat = _
    rw [UInt32.toNat_toUInt64]
    rfl
  · rfl
  · rfl

/-- A conversion takes its arguments and prints its text. -/
theorem convert_eq (l : Length) (k : Conversion) (hk : (Directive.conv l k).Ok) :
    convert l.isLong k.char (k.args ++ rest) = some (k.out l, rest) := by
  cases k with
  | s str => cases str <;> rfl
  | d w =>
    rw [Conversion.out, ← signed_eq]
    rfl
  | u w =>
    rw [Conversion.out, show (10 : Nat) = (10 : UInt64).toNat from rfl, ← unsigned_eq l w (by decide)]
    rfl
  | x w =>
    rw [Conversion.out, show (16 : Nat) = (16 : UInt64).toNat from rfl, ← unsigned_eq l w (by decide)]
    rfl
  | X w =>
    rw [Conversion.out, show (16 : Nat) = (16 : UInt64).toNat from rfl, ← unsigned_eq l w (by decide)]
    rfl
  | p w =>
    rw [Conversion.out, show (16 : Nat) = (16 : UInt64).toNat from rfl, ← printUnsigned_eq w (by decide)]
    rfl
  | c w => rfl
  | percent => rfl
  | other ch =>
    simp only [Directive.Ok, List.map_cons, List.map_nil, List.mem_cons, List.not_mem_nil, or_false, not_or] at hk
    obtain ⟨-, hs, hd, hu, hx, hX, hp, hc, hpercent⟩ := hk
    show convert l.isLong ch rest = _
    unfold convert
    rw [if_neg hs, if_neg hd, if_neg hu, if_neg (not_or.mpr ⟨hx, hX⟩), if_neg hp, if_neg hc, if_neg hpercent]
    rfl

theorem char_ne (l : Length) (k : Conversion) (hk : (Directive.conv l k).Ok) : k.char ≠ 'l'.toUInt8 := by
  cases k with
  | other ch => exact fun h => hk (List.mem_cons.mpr (.inl h))
  | _ =>
    simp only [Conversion.char]
    decide

theorem printkLoop_directive (d : Directive) (hd : d.Ok) :
    printkLoop (d.bytes ++ fmt) (d.args ++ rest) = (printkLoop fmt rest).map (d.out ++ ·) := by
  cases d with
  | lit c =>
    have hc : c ≠ '%'.toUInt8 := hd
    show printkLoop (c :: fmt) rest = _
    rw [printkLoop, if_pos hc]
    rfl
  | conv l k =>
    have hflag : lengthFlag (l.bytes ++ [k.char] ++ fmt) = (l.isLong, k.char :: fmt) := by
      rw [List.append_assoc]
      exact lengthFlag_bytes l (char_ne l k hd)
    show printkLoop ('%'.toUInt8 :: (l.bytes ++ [k.char] ++ fmt)) (k.args ++ rest) = _
    rw [printkLoop, if_neg (not_not.mpr rfl), hflag]
    show (match convert l.isLong k.char (k.args ++ rest) with
      | none => none
      | some (text, args) => (printkLoop fmt args).map (text ++ ·)) = _
    rw [convert_eq l k hd]
    rfl

/-- A directive that the end of the buffer cuts off prints nothing. -/
theorem printkLoop_cut (d : Directive) {n : Nat} (hn : n < d.bytes.length) (args : List Arg) :
    printkLoop (d.bytes.take n) args = some [] := by
  have hpercent : ∀ fmt : List UInt8, (lengthFlag fmt).2 = [] → printkLoop ('%'.toUInt8 :: fmt) args = some [] := by
    intro fmt hfmt
    rw [printkLoop, if_neg (not_not.mpr rfl)]
    split
    · rfl
    · rename_i hflag
      rw [hflag] at hfmt
      cases hfmt
  cases n with
  | zero => rw [List.take_zero, printkLoop]
  | succ n =>
    cases d with
    | lit c =>
      have hn : n + 1 < 1 := hn
      omega
    | conv l k =>
      rw [Directive.bytes, List.take_succ_cons]
      apply hpercent
      have hn : n < (l.bytes ++ [k.char]).length := Nat.lt_of_succ_lt_succ hn
      cases l <;> simp only [Length.bytes, List.length_append, List.length_cons, List.length_nil] at hn
      · obtain rfl : n = 0 := by omega
        rfl
      · obtain rfl | rfl : n = 0 ∨ n = 1 := by omega
        · rfl
        · rfl
      · obtain rfl | rfl | rfl : n = 0 ∨ n = 1 ∨ n = 2 := by omega
        · rfl
        · rfl
        · rfl

theorem printkLoop_take (n : Nat) (ds : List Directive) (hds : ∀ d ∈ ds, d.Ok) :
    printkLoop ((ds.flatMap Directive.bytes).take n) (ds.flatMap Directive.args ++ rest) =
      some ((Directive.fitting n ds).flatMap Directive.out) := by
  induction ds generalizing n with
  | nil =>
    rw [List.flatMap_nil, List.take_nil, printkLoop]
    rfl
  | cons d ds ih =>
    rw [List.flatMap_cons, List.flatMap_cons, List.append_assoc, List.take_append, Directive.fitting]
    split
    · rename_i hfit
      rw [List.take_of_length_le hfit, printkLoop_directive d (hds d List.mem_cons_self),
        ih _ fun d hd => hds d (List.mem_cons_of_mem _ hd)]
      rfl
    · rename_i hcut
      rw [Nat.sub_eq_zero_of_le (by omega), List.take_zero, List.append_nil, printkLoop_cut d (by omega)]
      rfl

end Loop

/-- `printk` prints the texts of the directives that lie within the first 511 characters of the format, in the colours that
it is given, and puts the old colours back. -/
theorem printk_directives (isgui : Bool) (s : Screen) (fg bg : UInt32) (ds : List Directive) (hds : ∀ d ∈ ds, d.Ok)
    (format : CString) (hformat : format.map (·.val) = ds.flatMap Directive.bytes) (rest : List Arg) :
    printk isgui s fg bg (some format) (ds.flatMap Directive.args ++ rest) =
      some (setColors (((Directive.fitting 511 ds).flatMap Directive.out).foldl (printc isgui) (setColors s fg bg))
        s.cursor.fgColor s.cursor.bgColor) := by
  have htext : printkText format (ds.flatMap Directive.args ++ rest) =
      some ((Directive.fitting 511 ds).flatMap Directive.out) := by
    rw [printkText, hformat, printkLoop_take 511 ds hds]
  show (printkText format _).map _ = _
  rw [htext]
  rfl

/-- `printk(WHITE, BLACK, "%d%%", -7)` -/
theorem printk_directives_percent :
    (∀ d ∈ [Directive.conv .int (.d 0xFFFFFFF9), .conv .int .percent], d.Ok) ∧
      printk false (whiteScreen 1024 768 1024) WHITE BLACK (some (.ofBytes [37, 100, 37, 37])) [.word 0xFFFFFFF9] =
        some (setColors (([45, 55, 37] : List UInt8).foldl (printc false)
          (setColors (whiteScreen 1024 768 1024) WHITE BLACK)) WHITE RED) := by
  have hds : ∀ d ∈ [Directive.conv .int (.d 0xFFFFFFF9), .conv .int .percent], d.Ok := by
    intro d hd
    rcases List.mem_cons.mp hd with rfl | hd
    · trivial
    · obtain rfl := List.mem_singleton.mp hd
      trivial
  refine ⟨hds, ?_⟩
  have h := printk_directives false (whiteScreen 1024 768 1024) WHITE BLACK _ hds (.ofBytes [37, 100, 37, 37]) (by decide) []
  have hout : (Directive.fitting 511 [Directive.conv .int (.d 0xFFFFFFF9), .conv .int .percent]).flatMap Directive.out =
      [45, 55, 37] := by
    simp [Directive.fitting, Directive.bytes, Length.bytes, Directive.out, Conversion.out, Length.signed, numeral, digitChar]
  rwa [hout] at h

/-! ## All that prints -/

inductive Command where
  | printc (c : UInt8)
  | printcs (str : CString)
  | printk (textFg textBg : UInt32) (format : Option CString) (args : List Arg)
  | setColors (fg bg : UInt32)
  | clearScreen (color : UInt32)

/-- What a command does to the screen, outside the GUI. -/
def Command.run (s : Screen) : Command → Option Screen
  | .printc c => some (Print.printc false s c)
  | .printcs str => some (Print.printcs false s str)
  | .printk textFg textBg format args => Print.printk false s textFg textBg format args
  | .setColors fg bg => some (Print.setColors s fg bg)
  | .clearScreen color => some (Print.clearScreen s color)

/-- What a command does to the page that is behind a screen of this shape. -/
def Command.onPage (fb : Framebuffer) (p : Page) : Command → Option Page
  | .printc c => some (p.type fb.room c)
  | .printcs str => some ((str.map (·.val)).foldl (Page.type fb.room) p)
  | .printk _ _ none _ => some p
  | .printk textFg textBg (some format) args =>
    (printkText format args).map fun text =>
      { text.foldl (Page.type fb.room) { p with fg := textFg, bg := textBg } with fg := p.fg, bg := p.bg }
  | .setColors fg bg => some { p with fg := fg, bg := bg }
  | .clearScreen color => some (p.blank fb.height.toNat color)

section Console

variable {p : Page} {s : Screen} {fb : Framebuffer}

/-- The screen shows the page, and has been drawn on a screen of the given shape. -/
structure ShowsOn (fb : Framebuffer) (p : Page) (s : Screen) : Prop where
  shows : Shows p s
  draws : fb.Draws s.fb

theorem ShowsOn.step (hu : fb.Usable) (h : ShowsOn fb p s) (cmd : Command) :
    Option.Rel (ShowsOn fb) (cmd.onPage fb p) (cmd.run s) := by
  have hroom := h.draws.room
  have hus := h.draws.usable hu
  cases cmd with
  | printc c =>
    obtain ⟨hc, hd⟩ := h.shows.printc hus c
    exact .some ⟨hroom ▸ hc, h.draws.trans hd⟩
  | printcs str =>
    obtain ⟨hstr, hd⟩ := h.shows.foldl_printc hus (str.map (·.val))
    exact .some ⟨hroom ▸ hstr, h.draws.trans hd⟩
  | printk textFg textBg format args =>
    cases format with
    | none => exact .some h
    | some format =>
      show Option.Rel _ ((printkText format args).map _) ((printkText format args).map _)
      cases printkText format args with
      | none => exact .none
      | some text =>
        have hcolors : Shows { p with fg := textFg, bg := textBg } (Print.setColors s textFg textBg) :=
          h.shows.setColors textFg textBg
        obtain ⟨htext, hd⟩ := @Shows.foldl_printc _ (Print.setColors s textFg textBg) hus hcolors text
        have hback := htext.setColors s.cursor.fgColor s.cursor.bgColor
        rw [h.shows.fg, h.shows.bg] at hback
        refine .some ⟨?_, h.draws.trans hd⟩
        rw [h.shows.fg, h.shows.bg, ← hroom]
        exact hback
  | setColors fg bg => exact .some ⟨h.shows.setColors fg bg, h.draws⟩
  | clearScreen color =>
    obtain ⟨hclear, hd⟩ := clearScreen_shows (p := p) hus color h.shows.fg h.shows.bg
    refine .some ⟨?_, h.draws.trans hd⟩
    rw [← h.draws.height]
    exact hclear

theorem ShowsOn.run (hu : fb.Usable) (h : ShowsOn fb p s) (cmds : List Command) :
    Option.Rel (ShowsOn fb) (cmds.foldlM (Command.onPage fb) p) (cmds.foldlM Command.run s) := by
  induction cmds generalizing p s with
  | nil => exact .some h
  | cons cmd cmds ih =>
    rw [List.foldlM_cons, List.foldlM_cons]
    cases hp : cmd.onPage fb p with
    | none =>
      cases hs : cmd.run s with
      | none => exact .none
      | some s' =>
        have := h.step hu cmd
        rw [hp, hs] at this
        cases this
    | some p' =>
      cases hs : cmd.run s with
      | none =>
        have := h.step hu cmd
        rw [hp, hs] at this
        cases this
      | some s' =>
        have := h.step hu cmd
        rw [hp, hs] at this
        cases this with
        | some h' => exact ih h'

/-- From `ClearScreen` on, whatever was on the screen before and whatever is printed: the screen shows the window on the
page, and nothing is written behind the pixels of the screen. The run stops early where a `printk` has no arguments that
suit its format, and not otherwise. -/
theorem console_shows (s : Screen) (hu : s.fb.Usable) (color : UInt32) (cmds : List Command) :
    Option.Rel (ShowsOn s.fb)
      (cmds.foldlM (Command.onPage s.fb)
        ⟨fun y => if y < s.fb.height.toNat then color else BLACK, fun _ _ => none, 0, 0, s.cursor.fgColor, s.cursor.bgColor,
          0⟩)
      (cmds.foldlM Command.run (clearScreen s color)) := by
  have h := clearScreen_shows (p := ⟨fun _ => BLACK, fun _ _ => none, 0, 0, s.cursor.fgColor, s.cursor.bgColor, 0⟩) hu color
    rfl rfl
  exact ShowsOn.run hu ⟨h.1, h.2⟩ cmds

/-- Two columns and two lines: the fifth character comes to a third line, and the window has moved. -/
theorem console_shows_scrolled : ∃ p s,
    [Command.setColors WHITE BLACK, .printcs [⟨65, by decide⟩, ⟨66, by decide⟩, ⟨67, by decide⟩], .printc 68, .printc 69].foldlM
      (Command.onPage (whiteScreen 16 24 16).fb)
      ⟨fun y => if y < 24 then BLACK else BLACK, fun _ _ => none, 0, 0, WHITE, RED, 0⟩ = some p ∧
    p.line = 2 ∧ p.column = 1 ∧ p.top = 1 ∧
    [Command.setColors WHITE BLACK, .printcs [⟨65, by decide⟩, ⟨66, by decide⟩, ⟨67, by decide⟩], .printc 68, .printc 69].foldlM
      Command.run (clearScreen (whiteScreen 16 24 16) BLACK) = some s ∧ ShowsOn (whiteScreen 16 24 16).fb p s := by
  have hu : (whiteScreen 16 24 16).fb.Usable := ⟨⟨rfl, by decide⟩, by decide, by decide⟩
  have h := console_shows (whiteScreen 16 24 16) hu BLACK
    [.setColors WHITE BLACK, .printcs [⟨65, by decide⟩, ⟨66, by decide⟩, ⟨67, by decide⟩], .printc 68, .printc 69]
  generalize hs : List.foldlM Command.run (clearScreen (whiteScreen 16 24 16) BLACK) _ = out at h ⊢
  cases h with
  | some hshow => exact ⟨_, _, rfl, rfl, rfl, rfl, rfl, hshow⟩

end Console

end AmqOs.Print
