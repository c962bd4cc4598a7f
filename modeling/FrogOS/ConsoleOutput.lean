import FrogOS.Snprintf
import FrogOS.Terminal

/-!
# Text on the console

`printf_` and `fctprintf` of `lib/printf.c`, `puts` of `lib/conio.c` and `strlen`: what the kernel
calls to print. Of the system calls `SYSCALL_WRITE` prints a buffer; those from 5 to 29 call `puts`.
The formats and the strings are in the same memory as the screen. Away from the screen they are read
as they were before the first character was printed, since `putch` writes only to the screen as long
as the cursor is on it, which is so from `cls` on.

The zero that ends the string and the zeros in it do not reach the output function of `printf`.

`puts` computes `strlen(text)` again for every character. Its counters are `int`s, and natural
numbers here; a string with 2 GiB would be undefined.

## Main definitions

* `printf`, `fctprintf`, `puts`, `write` — with the arguments of their calls
* `ConsoleCall` — a call that prints
* `Displays` — the console shows a sheet

## Main results

* `output_refines_terminal` — any sequence of calls shows the concatenated texts
-/

namespace FrogOS

open Vsnprintf ByteMemory

/-! ### The functions -/

/-- `_out_fct`; `fct c` stands for `fct(c, arg)`. -/
def outFct {σ : Type} (fct : BitVec 8 → σ → σ) : OutFct σ := fun character _ _ _ s =>
  if character ≠ 0 then fct character s else s

/-- `fctprintf`. The output function finds its wrapper at the address of the buffer, which is that
of a local variable here and in `printf`: of these addresses, it only matters that they are not
null. -/
def fctprintf {σ : Type} (mem : σ → ByteMemory) (fct : BitVec 8 → σ → σ) (fuel format : ℕ)
    (va : List (BitVec 64)) (s : σ) : Option (BitVec 32 × σ) :=
  vsnprintf mem ⟨outFct fct, 1, -1⟩ fuel format va s

/-- `_out_char`. -/
def outChar : OutFct Console := fun character _ _ _ c =>
  if character ≠ 0 then c.putch character else c

/-- `printf_`, and `vprintf_`. -/
def printf (fuel format : ℕ) (va : List (BitVec 64)) (c : Console) :
    Option (BitVec 32 × Console) :=
  vsnprintf Console.mem ⟨outChar, 1, -1⟩ fuel format va c

/-- `strlen`, from the length counted so far. -/
def strlen (m : ByteMemory) : ℕ → ℕ → ℕ → Option ℕ
  | 0, _, _ => none
  | fuel + 1, str, len => if m str ≠ 0 then strlen m fuel (str + 1) (len + 1) else some len

/-- The loop of `puts`, with fuel for its rounds and for `strlen`. -/
def putsLoop (strlenFuel text : ℕ) : ℕ → ℕ → Console → Option Console
  | 0, _, _ => none
  | fuel + 1, i, c => do
    let len ← strlen c.mem strlenFuel text 0
    if i < len then putsLoop strlenFuel text fuel (i + 1) (c.putch (c.mem (text + i))) else some c

def puts (fuel text : ℕ) (c : Console) : Option Console := putsLoop fuel text fuel 0 c

/-- The loop of `SYSCALL_WRITE`, from `i` on. -/
def write (buffer len : BitVec 64) : ℕ → BitVec 64 → Console → Option Console
  | 0, _, _ => none
  | fuel + 1, i, c =>
    if i < len then write buffer len fuel (i + 1) (c.putch (c.mem (buffer + i).toNat)) else some c

/-- A call that prints. -/
inductive ConsoleCall
  | putch (c : BitVec 8)
  | puts (text : ℕ)
  | printf (format : ℕ) (va : List (BitVec 64))
  | write (buffer len : BitVec 64)

def ConsoleCall.exec (fuel : ℕ) (c : Console) : ConsoleCall → Option Console
  | .putch ch => some (c.putch ch)
  | .puts text => FrogOS.puts fuel text c
  | .printf format va => (FrogOS.printf fuel format va c).map Prod.snd
  | .write buffer len => FrogOS.write buffer len fuel 0 c

/-- What a call prints. -/
def ConsoleCall.Prints (m : ByteMemory) (R : Set ℕ) : ConsoleCall → List (BitVec 8) → Prop
  | .putch c, text => text = [c]
  | .puts a, text => StringAt m R a text
  | .printf a va, text => ∃ all, HasText m R a va all ∧ text = all.filter (· ≠ 0)
  | .write buffer len, text => text.length = len.toNat ∧ ∀ i (h : i < text.length),
      (buffer + BitVec.ofNat 64 i).toNat ∈ R ∧ m (buffer + BitVec.ofNat 64 i).toNat = text[i]

/-! ### The output functions -/

/-- The characters that reach the output function of `fctprintf`. -/
theorem sendText_outFct {σ : Type} (fct : BitVec 8 → σ → σ) (buffer : ℕ) (maxlen : BitVec 64)
    (text : List (BitVec 8)) (s : σ) :
    sendText ⟨outFct fct, buffer, maxlen⟩ text s =
      (text.filter (· ≠ 0)).foldl (fun s c => fct c s) s := by
  have hputAll : ∀ (text : List (BitVec 8)) (p : Cursor σ),
      (putAll ⟨outFct fct, buffer, maxlen⟩ text p).state =
        (text.filter (· ≠ 0)).foldl (fun s c => fct c s) p.state := by
    intro text
    induction text with
    | nil => exact fun _ => rfl
    | cons c text ih =>
      intro p
      rw [putAll, ih]
      by_cases hc : c = 0
      · subst hc
        rfl
      · rw [List.filter_cons_of_pos (by simpa using hc), List.foldl_cons]
        exact congrArg (List.foldl _ · _) (if_pos hc)
  exact hputAll text ⟨0, s⟩

theorem keeps_outFct {σ : Type} {mem : σ → ByteMemory} {fct : BitVec 8 → σ → σ} {m : ByteMemory}
    {R : Set ℕ} {I : σ → Prop} (hfct : ∀ ch s, I s → I (fct ch s))
    (hmem : ∀ s, I s → ∀ a ∈ R, mem s a = m a) (buffer : ℕ) (maxlen : BitVec 64) :
    Keeps mem ⟨outFct fct, buffer, maxlen⟩ m R I where
  out ch _ s h := by
    dsimp only [outFct]
    split
    · exact hfct ch s h
    · exact h
  mem := hmem

/-- `fctprintf` calls its function once for every character of the text that is not zero. -/
theorem fctprintf_eq {σ : Type} {mem : σ → ByteMemory} {fct : BitVec 8 → σ → σ} {m : ByteMemory}
    {R : Set ℕ} {I : σ → Prop} (hfct : ∀ ch s, I s → I (fct ch s))
    (hmem : ∀ s, I s → ∀ a ∈ R, mem s a = m a) {a : ℕ} {va : List (BitVec 64)}
    {text : List (BitVec 8)} (htext : HasText m R a va text) :
    ∃ fuel₀, ∀ fuel > fuel₀, ∀ s, I s → fctprintf mem fct fuel a va s =
      some (BitVec.ofNat 32 text.length,
        (text.filter (· ≠ 0)).foldl (fun s ch => fct ch s) s) := by
  obtain ⟨fuel₀, hfuel₀⟩ := vsnprintf_eq (keeps_outFct hfct hmem 1 (-1)) htext
  refine ⟨fuel₀, fun fuel hfuel s hs => ?_⟩
  rw [fctprintf, hfuel₀ fuel hfuel s hs, if_neg Nat.one_ne_zero, sendText_outFct]

/-- `printf` is the one that calls `putch`. -/
theorem printf_eq_fctprintf :
    printf = fctprintf Console.mem fun ch c => c.putch ch := rfl

/-! ### The states of the console -/

/-- The console shows the sheet `T`, and the memory outside the screen is that of `m`. -/
def Displays (m : ByteMemory) (T : Terminal) (c : Console) : Prop :=
  Shows m (T.row - 24) c T ∧ T.x < 80

/-- The console shows some sheet. -/
def ShowsSheet (m : ByteMemory) (c : Console) : Prop := ∃ T : Terminal, Displays m T c

variable {m : ByteMemory} {R : Set ℕ} {c : Console} {T : Terminal}

theorem Displays.foldl (h : Displays m T c) (text : List (BitVec 8)) :
    Displays m (text.foldl Terminal.put T) (text.foldl Console.putch c) := by
  induction text generalizing c T with
  | nil => exact h
  | cons ch text ih => exact ih (h.1.putch h.2 ch)

theorem ShowsSheet.putch (ch : BitVec 8) : ShowsSheet m c → ShowsSheet m (c.putch ch)
  | ⟨T, hT⟩ => ⟨T.put ch, hT.foldl [ch]⟩

theorem ShowsSheet.foldl (h : ShowsSheet m c) (text : List (BitVec 8)) :
    ShowsSheet m (text.foldl Console.putch c) :=
  let ⟨_, hT⟩ := h
  ⟨_, hT.foldl text⟩

theorem ShowsSheet.mem_eq (hR : ∀ a ∈ R, a < video ∨ video + 4000 ≤ a) (h : ShowsSheet m c) :
    ∀ a ∈ R, c.mem a = m a := by
  obtain ⟨T, hT⟩ := h
  exact fun a ha => hT.1.outside a (hR a ha)

/-! ### One call -/

theorem strlen_eq {s : List (BitVec 8)} {fuel a n : ℕ} (h : StringAt m R a s)
    (hfuel : s.length < fuel) : strlen m fuel a n = some (n + s.length) := by
  induction s generalizing fuel a n with
  | nil =>
    obtain ⟨fuel, rfl⟩ := Nat.exists_eq_succ_of_ne_zero hfuel.ne_bot
    rw [strlen, if_neg (not_not_intro h.2)]
    rfl
  | cons c s ih =>
    obtain ⟨fuel, rfl⟩ := Nat.exists_eq_succ_of_ne_zero (Nat.ne_of_gt (Nat.zero_lt_of_lt hfuel))
    obtain ⟨-, hm, hc, hs⟩ := h
    rw [strlen, if_pos (hm ▸ hc), ih hs (Nat.lt_of_succ_lt_succ hfuel), List.length_cons]
    congr 1
    omega

theorem stringAt_getElem {s : List (BitVec 8)} {a i : ℕ} (h : StringAt m R a s)
    (hi : i < s.length) : m (a + i) = s[i] := by
  induction s generalizing a i with
  | nil => exact absurd hi (Nat.not_lt_zero i)
  | cons c s ih =>
    cases i with
    | zero => exact h.2.1
    | succ i =>
      rw [show a + (i + 1) = a + 1 + i by omega]
      exact ih h.2.2.2 (Nat.lt_of_succ_lt_succ hi)

theorem putsLoop_eq (hR : ∀ a ∈ R, a < video ∨ video + 4000 ≤ a) {a n : ℕ}
    {s : List (BitVec 8)} (hs : StringAt m R a s) (hn : s.length < n) {fuel i : ℕ}
    (hi : i ≤ s.length) (hfuel : s.length - i < fuel) (hc : ShowsSheet m c) :
    putsLoop n a fuel i c = some ((s.drop i).foldl Console.putch c) := by
  induction fuel generalizing i c with
  | zero => exact absurd hfuel (Nat.not_lt_zero _)
  | succ fuel ih =>
    have hat := hs.congr (hc.mem_eq hR)
    rw [putsLoop, strlen_eq hat hn, Option.bind_eq_bind, Option.bind_some, Nat.zero_add]
    split
    · next hlt =>
      rw [stringAt_getElem hat hlt, ih hlt (by omega) (hc.putch _), List.drop_eq_getElem_cons hlt]
      rfl
    · rw [List.drop_of_length_le (by omega)]
      rfl

theorem write_eq (hR : ∀ a ∈ R, a < video ∨ video + 4000 ≤ a) {buffer len : BitVec 64}
    {text : List (BitVec 8)} (h : ConsoleCall.Prints m R (.write buffer len) text) {fuel : ℕ}
    {i : BitVec 64} (hi : i ≤ len) (hfuel : text.length - i.toNat < fuel) (hc : ShowsSheet m c) :
    write buffer len fuel i c = some ((text.drop i.toNat).foldl Console.putch c) := by
  obtain ⟨hlength, hat⟩ := id h
  induction fuel generalizing i c with
  | zero => exact absurd hfuel (Nat.not_lt_zero _)
  | succ fuel ih =>
    rw [write]
    split
    · next hlt =>
      have hlt' : i.toNat < text.length := hlength ▸ hlt
      have hsucc : (i + 1).toNat = i.toNat + 1 := by
        rw [BitVec.toNat_add]
        exact Nat.mod_eq_of_lt (Nat.lt_of_le_of_lt hlt len.isLt)
      obtain ⟨hin, hm⟩ := hat i.toNat hlt'
      rw [BitVec.ofNat_toNat, BitVec.setWidth_eq] at hin hm
      have hle : (i + 1).toNat ≤ len.toNat := hsucc.trans_le hlt
      rw [hc.mem_eq hR _ hin, hm, ih hle (by omega) (hc.putch _), hsucc,
        List.drop_eq_getElem_cons hlt']
      rfl
    · next hge =>
      have hle : text.length ≤ i.toNat := hlength.trans_le (Nat.le_of_not_lt hge)
      rw [List.drop_of_length_le hle]
      rfl

/-- A call prints its text. -/
theorem ConsoleCall.exec_eq (hR : ∀ a ∈ R, a < video ∨ video + 4000 ≤ a) {call : ConsoleCall}
    {text : List (BitVec 8)} (h : call.Prints m R text) :
    ∃ fuel₀, ∀ fuel > fuel₀, ∀ c, ShowsSheet m c →
      call.exec fuel c = some (text.foldl Console.putch c) := by
  cases call with
  | putch ch =>
    cases h
    exact ⟨0, fun _ _ _ _ => rfl⟩
  | puts a =>
    refine ⟨text.length, fun fuel hfuel c hc => ?_⟩
    exact putsLoop_eq hR h hfuel (Nat.zero_le _) ((Nat.sub_zero _).trans_lt hfuel) hc
  | printf a va =>
    obtain ⟨all, hall, rfl⟩ := h
    obtain ⟨fuel₀, hfuel₀⟩ := fctprintf_eq (I := ShowsSheet m)
      (fun ch _ => ShowsSheet.putch ch) (fun _ => ShowsSheet.mem_eq hR) hall
    refine ⟨fuel₀, fun fuel hfuel c hc => ?_⟩
    rw [exec, printf_eq_fctprintf, hfuel₀ fuel hfuel c hc]
    rfl
  | write buffer len =>
    refine ⟨text.length, fun fuel hfuel c hc => ?_⟩
    exact write_eq hR h (Nat.zero_le _) ((Nat.sub_le _ _).trans_lt hfuel) hc

/-! ### Sequences of calls -/

def printAll (fuel : ℕ) : List ConsoleCall → Console → Option Console
  | [], c => some c
  | call :: calls, c => (call.exec fuel c).bind (printAll fuel calls)

theorem printAll_eq (hR : ∀ a ∈ R, a < video ∨ video + 4000 ≤ a) {calls : List ConsoleCall}
    {texts : List (List (BitVec 8))}
    (h : List.Forall₂ (fun call text => ConsoleCall.Prints m R call text) calls texts) :
    ∃ fuel₀, ∀ fuel > fuel₀, ∀ c, ShowsSheet m c →
      printAll fuel calls c = some (texts.flatten.foldl Console.putch c) := by
  induction h with
  | nil => exact ⟨0, fun _ _ _ _ => rfl⟩
  | @cons call text calls texts hcall _ ih =>
    obtain ⟨fuel₁, h₁⟩ := ConsoleCall.exec_eq hR hcall
    obtain ⟨fuel₂, h₂⟩ := ih
    refine ⟨max fuel₁ fuel₂, fun fuel hfuel c hc => ?_⟩
    rw [printAll, h₁ fuel ((le_max_left _ _).trans_lt hfuel) c hc, Option.bind_some,
      h₂ fuel ((le_max_right _ _).trans_lt hfuel) _ (hc.foldl text), List.flatten_cons,
      List.foldl_append]

/-- On a console that shows a sheet, any sequence of calls leaves the sheet with the concatenated
texts on it. -/
theorem printAll_displays (hR : ∀ a ∈ R, a < video ∨ video + 4000 ≤ a) {calls : List ConsoleCall}
    {texts : List (List (BitVec 8))}
    (h : List.Forall₂ (fun call text => ConsoleCall.Prints m R call text) calls texts) :
    ∃ fuel₀, ∀ fuel > fuel₀, ∀ c T, Displays m T c →
      ∃ c', printAll fuel calls c = some c' ∧
        Displays m (texts.flatten.foldl Terminal.put T) c' := by
  obtain ⟨fuel₀, hfuel₀⟩ := printAll_eq hR h
  exact ⟨fuel₀, fun fuel hfuel c T hT => ⟨_, hfuel₀ fuel hfuel c ⟨T, hT⟩, hT.foldl _⟩⟩

/-- Characters after `cls`. -/
theorem refines_foldl (c : Console) (text : List (BitVec 8)) :
    Refines (text.foldl Console.putch c.cls) (text.foldl Terminal.put Terminal.initial) := by
  obtain ⟨hshows, hx⟩ := shows_run c text
  obtain ⟨c', hc'⟩ := exists_moveCsr c text
  rw [hc'] at hshows ⊢
  exact hshows.refines hx

/-- **What the kernel prints**: after `cls`, any sequence of calls of `putch`, `puts`, `printf` and
`SYSCALL_WRITE` returns and leaves on the screen what the unbounded terminal shows of the
concatenated texts, and changes no memory outside the screen. -/
theorem output_refines_terminal (hR : ∀ a ∈ R, a < video ∨ video + 4000 ≤ a) (c : Console)
    {calls : List ConsoleCall} {texts : List (List (BitVec 8))}
    (h : List.Forall₂ (fun call text => ConsoleCall.Prints c.mem R call text) calls texts) :
    ∃ fuel₀, ∀ fuel > fuel₀, ∃ c', printAll fuel calls c.cls = some c' ∧
      Refines c' (texts.flatten.foldl Terminal.put Terminal.initial) ∧
      ∀ a, a < video ∨ video + 4000 ≤ a → c'.mem a = c.mem a := by
  obtain ⟨fuel₀, hfuel₀⟩ := printAll_eq hR h
  refine ⟨fuel₀, fun fuel hfuel => ⟨_, hfuel₀ fuel hfuel c.cls ?_, refines_foldl c _,
    (shows_run c texts.flatten).1.outside⟩⟩
  exact ⟨Terminal.initial, shows_cls c, by decide⟩

theorem output_refines_terminal_answer :
    let c : Console := ⟨storeBytes (fun _ => 0) 16 (literal "%d\n" ++ [0]), 0, 0, 0, fun _ => 0⟩
    ∃ fuel₀, ∀ fuel > fuel₀, ∃ c',
      printAll fuel [.printf 16 [42], .putch (byteOf '!')] c.cls = some c' ∧
      Refines c' ((literal "42\n!").foldl Terminal.put Terminal.initial) ∧
      ∀ a, a < video ∨ video + 4000 ≤ a → c'.mem a = c.mem a := by
  intro c
  have hstring : StringAt c.mem {x | x < 32} 16 (literal "%d\n") :=
    stringAt_storeBytes (by decide) fun i hi => by
      have hi : i ≤ 3 := hi
      exact Nat.lt_of_le_of_lt (Nat.add_le_add_left hi 16) (by decide)
  have htext : HasText c.mem {x | x < 32} 16 [42] (literal "42\n") :=
    ⟨_, [.int 42], hstring, .cons rfl .nil, by decide⟩
  have hcalls : List.Forall₂ (fun call text => ConsoleCall.Prints c.mem {x | x < 32} call text)
      [.printf 16 [42], .putch (byteOf '!')] [literal "42\n", [byteOf '!']] :=
    .cons ⟨_, htext, by decide⟩ (.cons rfl .nil)
  exact output_refines_terminal (fun x hx => Or.inl (Nat.lt_trans hx (by decide))) c hcalls

end FrogOS
