/-
Wjos.Shell.ParseArg — the arguments of a command (`parse_arg` and `hang` of
shell/main.c), and what `exec` hands on.

`parse_arg` cuts the line at its first line feed and then at its first carriage
return, and takes it apart with `strtok`, which puts a NUL behind each token
and remembers where it goes on. The loop stores to `argv` while `*argc` is at
most `CLI_MAX_ARG_COUNT`, one more than the array has room for, and nothing is
stored behind the last token: `hang` does not clear `argv`. So the arguments
arrive exactly for a line of ten tokens at most, if the word of the stack behind
the last of them happens to be null, where a program is run at all
(`parseArg_right_iff`).

`curr_input` and `argv` are memories of their own; a pointer is an address of
the first, and null is 0.
-/
import Mathlib.Data.List.TakeWhile
import Wjos.Lib.Track
import Wjos.Lib.Words
import Wjos.Shell.CmdExecutor

namespace Wjos.Shell

open Lib

def cliInputSize : Nat := 128
def cliMaxArgCount : Nat := 10

/-! ## The string functions -/

/-- `strchr`; `n` bytes can still be looked at. -/
def strchr (m : Track UInt8) (c : UInt8) : (n : Nat) → (s : Int) → Option Int
  | 0, _ => none
  | n + 1, s =>
    if m.cell s = c then some s else if m.cell s = 0 then none else strchr m c n (s + 1)

/-- The first byte from `s` on that is not a space. -/
def skipSpaces (m : Track UInt8) : (n : Nat) → (s : Int) → Int
  | 0, s => s
  | n + 1, s => if m.cell s = 32 then skipSpaces m n (s + 1) else s

/-- The first byte from `s` on that is a space or ends the string. -/
def tokenEnd (m : Track UInt8) : (n : Nat) → (s : Int) → Int
  | 0, s => s
  | n + 1, s => if m.cell s = 32 ∨ m.cell s = 0 then s else tokenEnd m n (s + 1)

/-- What `strtok` leaves: the memory, the token it returns and the place where
the next call goes on. -/
structure Strtok where
  mem : Track UInt8
  token : Option Int
  next : Option Int

/-- `strtok` with a space as the delimiter. -/
def strtok (m : Track UInt8) : Option Int → Strtok
  | none => ⟨m, none, none⟩
  | some s =>
    let t := skipSpaces m cliInputSize s
    if m.cell t = 0 then ⟨m, none, none⟩
    else
      let e := tokenEnd m cliInputSize t
      if m.cell e = 0 then ⟨m, some t, none⟩ else ⟨m.put e 0, some t, some (e + 1)⟩

/-- The string at `s`. -/
def stringAt (m : Track UInt8) : (n : Nat) → (s : Int) → List UInt8
  | 0, _ => []
  | n + 1, s => if m.cell s = 0 then [] else m.cell s :: stringAt m n (s + 1)

/-! ## parse_arg -/

/-- `curr_input`, `argv` and `argc`. -/
structure Parsed where
  input : Track UInt8
  argv : Track Int
  argc : Nat

/-- The loop; `k` is what the last call of `strtok` has left. -/
def parseLoop (argv : Track Int) (argc : Nat) (k : Strtok) : Parsed :=
  match k.token with
  | none => ⟨k.mem, argv, argc⟩
  | some token =>
    if argc ≤ cliMaxArgCount then
      parseLoop (argv.put argc token) (argc + 1) (strtok k.mem k.next)
    else ⟨k.mem, argv, argc⟩
termination_by cliMaxArgCount + 1 - argc

/-- `cr = strchr(cli.curr_input, c); if (cr) *cr = '\0';` -/
def cutAt (m : Track UInt8) (input : Int) (c : UInt8) : Track UInt8 :=
  match strchr m c cliInputSize input with
  | some cr => m.put cr 0
  | none => m

/-- `parse_arg`; `*argc` is 0. -/
def parseArg (m : Track UInt8) (input : Int) (argv : Track Int) : Parsed :=
  let m := cutAt m input 10
  let m := cutAt m input 13
  parseLoop argv 0 (strtok m (some input))

/-- One pass of `hang`: what `run_exec_file` is called with, if it is. `stack`
is what lies where `argv` is. -/
def hang (opens : List UInt8 → Bool) (path : List UInt8) (m : Track UInt8) (input : Int)
    (stack : Int → Int) : Option (List UInt8 × Parsed) :=
  let r := parseArg m input (Track.start stack)
  if r.argc = 0 then none
  else (exec opens path (stringAt r.input cliInputSize (r.argv.cell 0))).2.map fun p => (p, r)

/-- `strings_count`; `n` words can still be looked at. -/
def stringsCount (start : Int → Int) : (n : Nat) → (i : Int) → Nat
  | 0, _ => 0
  | n + 1, i => if start i = 0 then 0 else stringsCount start n (i + 1) + 1

/-- The maximal parts without a space of a line up to its first line end. -/
def tokens (line : List UInt8) : List (List UInt8) :=
  words 32 ((line.takeWhile (· ≠ 10)).takeWhile (· ≠ 13))

/-- The arguments are stored in the array, are the tokens of the line, and the
array that `run_exec_file` gets ends with a null pointer behind them. -/
structure ArgsRight (opens : List UInt8 → Bool) (path : List UInt8) (m : Track UInt8)
    (input : Int) (stack : Int → Int) (line : List UInt8) : Prop where
  inside : ∀ i ∈ (parseArg m input (Track.start stack)).argv.stored, 0 ≤ i ∧ i < cliMaxArgCount
  argc : (parseArg m input (Track.start stack)).argc = (tokens line).length
  token : ∀ i (h : i < (tokens line).length), (parseArg m input (Track.start stack)).input.Spells
    ((parseArg m input (Track.start stack)).argv.cell i) (tokens line)[i]
  ended : ∀ p r, hang opens path m input stack = some (p, r) → r.argv.cell r.argc = 0

/-! ## Scanning a string -/

variable {m : Track UInt8} {s w rest : List UInt8} {a : Int} {n : Nat}

theorem strchr_eq {c : UInt8} (h : m.Spells a s) (hc : c ≠ 0) (hn : s.length < n) :
    strchr m c n a = if c ∈ s then some (a + (s.takeWhile (· ≠ c)).length) else none := by
  induction s generalizing a n with
  | nil =>
    obtain ⟨n, rfl⟩ := Nat.exists_eq_add_of_lt hn
    have hend := Track.spells_nil.mp h
    rw [strchr, hend, if_neg (Ne.symm hc), if_pos rfl]
    simp
  | cons b s ih =>
    obtain ⟨n, rfl⟩ : ∃ n', n = n' + 1 := ⟨n - 1, by omega⟩
    obtain ⟨hb, hb0, hs⟩ := h.uncons
    rw [strchr, hb]
    by_cases hbc : b = c
    · simp [hbc]
    · rw [if_neg hbc, if_neg hb0, ih hs (by simpa using hn)]
      by_cases hmem : c ∈ s
      · simp [hmem, hbc]
        omega
      · simp [hmem, Ne.symm hbc]

/-- The line is cut in front of the character. -/
theorem cutAt_spells {c : UInt8} (h : m.Spells a s) (hc : c ≠ 0) (hs : s.length < cliInputSize) :
    (cutAt m a c).Spells a (s.takeWhile (· ≠ c)) := by
  rw [cutAt, strchr_eq h hc hs]
  by_cases hmem : c ∈ s
  · rw [if_pos hmem]
    rw [← List.takeWhile_append_dropWhile (p := (· ≠ c)) (l := s)] at h
    exact h.cut
  · rw [if_neg hmem, List.takeWhile_eq_self_iff.mpr]
    · exact h
    · intro b hb
      simpa using fun h0 : b = c => hmem (h0 ▸ hb)

theorem skipSpaces_eq (k : Nat) (h : m.Spells a (List.replicate k 32 ++ s)) (hn : k < n)
    (hs : s.head? ≠ some 32) : skipSpaces m n a = a + k := by
  induction k generalizing a n with
  | zero =>
    obtain ⟨n, rfl⟩ : ∃ n', n = n' + 1 := ⟨n - 1, by omega⟩
    have hne : m.cell a ≠ 32 := by
      cases s with
      | nil =>
        rw [Track.spells_nil.mp h]
        decide
      | cons c s =>
        rw [h.uncons.1]
        simpa using hs
    rw [skipSpaces, if_neg hne, Int.natCast_zero, Int.add_zero]
  | succ k ih =>
    obtain ⟨n, rfl⟩ : ∃ n', n = n' + 1 := ⟨n - 1, by omega⟩
    rw [List.replicate_succ, List.cons_append] at h
    obtain ⟨hc, -, hrest⟩ := h.uncons
    rw [skipSpaces, if_pos hc, ih hrest (by omega)]
    omega

theorem tokenEnd_eq (h : m.Spells a (w ++ rest)) (hn : w.length < n) (hw : (32 : UInt8) ∉ w)
    (hrest : rest = [] ∨ rest.head? = some 32) : tokenEnd m n a = a + w.length := by
  induction w generalizing a n with
  | nil =>
    obtain ⟨n, rfl⟩ : ∃ n', n = n' + 1 := ⟨n - 1, by omega⟩
    have hend : m.cell a = 32 ∨ m.cell a = 0 := by
      cases rest with
      | nil => exact .inr (Track.spells_nil.mp h)
      | cons c rest =>
        rw [List.nil_append] at h
        rw [h.uncons.1]
        exact .inl (by simpa using hrest)
    rw [tokenEnd, if_pos hend, List.length_nil, Int.natCast_zero, Int.add_zero]
  | cons c w ih =>
    obtain ⟨n, rfl⟩ : ∃ n', n = n' + 1 := ⟨n - 1, by omega⟩
    rw [List.cons_append] at h
    obtain ⟨hc, hc0, hw'⟩ := h.uncons
    have hin : ¬(m.cell a = 32 ∨ m.cell a = 0) := by
      rw [hc]
      rintro (h32 | h0)
      · exact hw (h32 ▸ List.mem_cons_self)
      · exact hc0 h0
    have hrest' : (32 : UInt8) ∉ w := fun hmem => hw (List.mem_cons_of_mem c hmem)
    rw [tokenEnd, if_neg hin, ih hw' (by simpa using hn) hrest', List.length_cons]
    omega

theorem stringAt_eq (h : m.Spells a s) (hn : s.length ≤ n) : stringAt m n a = s := by
  induction s generalizing a n with
  | nil =>
    cases n with
    | zero => rfl
    | succ n => rw [stringAt, if_pos (Track.spells_nil.mp h)]
  | cons c s ih =>
    obtain ⟨n, rfl⟩ : ∃ n', n = n' + 1 := ⟨n - 1, by simp at hn; omega⟩
    obtain ⟨hc, hc0, hs⟩ := h.uncons
    rw [stringAt, hc, if_neg hc0, ih hs (by simpa using hn)]

/-! ## strtok -/

/-- What a call of `strtok` has left when `ws` are still to come and everything
lies from `lo` on: nothing, or a token and the string behind it. -/
def Pending (k : Strtok) (lo : Int) (ws : List (List UInt8)) : Prop :=
  k.token = none ∧ ws = [] ∨
    ∃ t w ws', k.token = some t ∧ ws = w :: ws' ∧ lo ≤ t ∧ k.mem.Spells t w ∧
      (k.next = none ∧ ws' = [] ∨
        ∃ s, k.next = some (t + w.length + 1) ∧ k.mem.Spells (t + w.length + 1) s ∧
          s.length < cliInputSize ∧ words 32 s = ws')

/-- A call on spaces and a word: the word is the token. -/
theorem strtok_word (k : Nat) (h : m.Spells a (List.replicate k 32 ++ (w ++ rest))) (hne : w ≠ [])
    (hw : (32 : UInt8) ∉ w) (hrest : rest = [] ∨ rest.head? = some 32)
    (hs : (List.replicate k 32 ++ (w ++ rest)).length < cliInputSize) :
    strtok m (some a) =
      if m.cell (a + k + w.length) = 0 then ⟨m, some (a + k), none⟩
      else ⟨m.put (a + k + w.length) 0, some (a + k), some (a + k + w.length + 1)⟩ := by
  rw [List.length_append, List.length_replicate, List.length_append] at hs
  obtain ⟨c, w', rfl⟩ := List.exists_cons_of_ne_nil hne
  have hhead : ((c :: w') ++ rest).head? ≠ some 32 := by
    simpa using fun h32 : c = 32 => hw (h32 ▸ List.mem_cons_self)
  have hskip := skipSpaces_eq (n := cliInputSize) k h (by omega) hhead
  have htoken := h.append_right
  rw [List.length_replicate] at htoken
  have hend := tokenEnd_eq (n := cliInputSize) htoken (by omega) hw hrest
  have hfirst : m.cell (a + k) ≠ 0 := by
    obtain ⟨hc, hc0, -⟩ := htoken.uncons
    rw [hc]
    exact hc0
  rw [strtok, hskip, if_neg hfirst, hend]

/-- A call takes the first word of the string, and stores behind it only. -/
theorem strtok_pending (h : m.Spells a s) (hs : s.length < cliInputSize) :
    Pending (strtok m (some a)) a (words 32 s) ∧
      ∀ b, b < a → (strtok m (some a)).mem.cell b = m.cell b := by
  rcases words_split 32 s with ⟨k, rfl⟩ | ⟨k, w, rfl, hne, hw⟩ | ⟨k, w, r, rfl, hne, hw⟩
  · -- spaces only
    have hk : k < cliInputSize := by simpa using hs
    have hskip := skipSpaces_eq (n := cliInputSize) (s := []) k (by simpa using h) hk (by simp)
    have hend := h.ended
    rw [List.length_replicate] at hend
    have hr : strtok m (some a) = ⟨m, none, none⟩ := by
      rw [strtok, hskip]
      exact if_pos hend
    have hwords : words 32 (List.replicate k (32 : UInt8)) = [] := by
      have := words_replicate (32 : UInt8) k []
      simpa using this
    rw [hr, hwords]
    exact ⟨.inl ⟨rfl, rfl⟩, fun _ _ => rfl⟩
  · -- the last word
    rw [← List.append_nil w] at h hs ⊢
    have hr := strtok_word k h hne hw (.inl rfl) hs
    have htoken := h.append_right
    rw [List.length_replicate, List.append_nil] at htoken
    rw [if_pos htoken.ended] at hr
    rw [hr, words_replicate, List.append_nil, words_last hne hw]
    exact ⟨.inr ⟨a + k, w, [], rfl, rfl, by omega, htoken, .inl ⟨rfl, rfl⟩⟩, fun _ _ => rfl⟩
  · -- a word with a space behind it, onto which the NUL goes
    have hr := strtok_word k h hne hw (.inr rfl) hs
    have htoken := h.append_right
    rw [List.length_replicate] at htoken
    obtain ⟨hspace, -, hbehind⟩ := htoken.append_right.uncons
    rw [if_neg (by rw [hspace]; decide)] at hr
    rw [hr, words_replicate, words_word hne hw]
    simp only [List.length_append, List.length_replicate, List.length_cons] at hs
    have hr' : (m.put (a + k + w.length) 0).Spells (a + k + w.length + 1) r :=
      hbehind.congr fun b hb _ => Track.put_cell_of_ne (by omega)
    refine ⟨.inr ⟨a + k, w, words 32 r, rfl, rfl, by omega, htoken.cut, .inr ⟨r, rfl, hr', by omega,
      rfl⟩⟩, fun b hb => Track.put_cell_of_ne (by omega)⟩

/-- The next call of `strtok` takes the next token. -/
theorem pending_next {k : Strtok} {lo : Int} {w : List UInt8} {ws : List (List UInt8)}
    (h : Pending k lo (w :: ws)) :
    ∃ t, k.token = some t ∧ lo ≤ t ∧ k.mem.Spells t w ∧
      Pending (strtok k.mem k.next) (t + w.length + 1) ws ∧
      ∀ b, b ≤ t + w.length → (strtok k.mem k.next).mem.cell b = k.mem.cell b := by
  rcases h with ⟨-, hnil⟩ | ⟨t, w', ws', ht, hcons, hlo, hw, hnext⟩
  · exact absurd hnil (List.cons_ne_nil w ws)
  obtain ⟨rfl, rfl⟩ := List.cons.inj hcons
  refine ⟨t, ht, hlo, hw, ?_⟩
  rcases hnext with ⟨hnone, rfl⟩ | ⟨s, hsome, hs, hlen, rfl⟩
  · rw [hnone]
    exact ⟨.inl ⟨rfl, rfl⟩, fun _ _ => rfl⟩
  · rw [hsome]
    obtain ⟨hpending, hframe⟩ := strtok_pending hs hlen
    exact ⟨hpending, fun b hb => hframe b (by omega)⟩

/-! ## The loop -/

/-- The loop stores the tokens while there is room for them, and one more; the
strings they point to stay. -/
theorem parseLoop_eq (ws : List (List UInt8)) {k : Strtok} {lo : Int} (argv : Track Int)
    (argc : Nat) (h : Pending k lo ws) (hargc : argc ≤ cliMaxArgCount + 1) :
    ∃ ptrs : List Int, ptrs.length = min ws.length (cliMaxArgCount + 1 - argc) ∧
      (parseLoop argv argc k).argc = argc + ptrs.length ∧
      (parseLoop argv argc k).argv = argv.write argc ptrs ∧
      (∀ p ∈ ptrs, lo ≤ p) ∧
      (∀ i (hi : i < ptrs.length) (hi' : i < ws.length),
        (parseLoop argv argc k).input.Spells ptrs[i] ws[i]) ∧
      ∀ b, b < lo → (parseLoop argv argc k).input.cell b = k.mem.cell b := by
  induction ws generalizing k lo argv argc with
  | nil =>
    have hnone : k.token = none := by
      rcases h with ⟨hnone, -⟩ | ⟨_, _, _, -, hcons, -⟩
      · exact hnone
      · exact absurd hcons.symm (List.cons_ne_nil _ _)
    rw [parseLoop, hnone]
    exact ⟨[], by simp, rfl, rfl, by simp, by simp, fun _ _ => rfl⟩
  | cons w ws ih =>
    obtain ⟨t, ht, hlo, hw, hnext, hframe⟩ := pending_next h
    by_cases hroom : argc ≤ cliMaxArgCount
    · have hr : parseLoop argv argc k =
          parseLoop (argv.put argc t) (argc + 1) (strtok k.mem k.next) := by
        rw [parseLoop, ht]
        exact if_pos hroom
      rw [hr]
      obtain ⟨ptrs, hlen, hcount, hargv, hlow, hspells, hkeep⟩ :=
        ih (argv.put argc t) (argc + 1) hnext (by omega)
      refine ⟨t :: ptrs, ?_, ?_, ?_, ?_, ?_, fun b hb => ?_⟩
      · rw [List.length_cons, List.length_cons, hlen]
        omega
      · rw [hcount, List.length_cons]
        omega
      · rw [hargv, Track.write_cons]
        rfl
      · intro p hp
        rcases List.mem_cons.mp hp with rfl | hp
        · exact hlo
        · have := hlow p hp
          omega
      · intro i hi hi'
        cases i with
        | zero =>
          -- what follows goes behind this token
          refine hw.congr fun b hb hb' => ?_
          rw [hkeep b (by omega), hframe b hb']
        | succ i => exact hspells i (by simpa using hi) (by simpa using hi')
      · rw [hkeep b (by omega), hframe b (by omega)]
    · have hr : parseLoop argv argc k = ⟨k.mem, argv, argc⟩ := by
        rw [parseLoop, ht]
        exact if_neg hroom
      rw [hr]
      refine ⟨[], ?_, rfl, rfl, by simp, by simp, fun _ _ => rfl⟩
      rw [List.length_nil, List.length_cons]
      omega

/-! ## When the arguments arrive -/

/-- The tokens that are stored, and the strings they point to. -/
theorem parseArg_eq {input : Int} {line : List UInt8} (argv : Track Int) (h : m.Spells input line)
    (hlen : line.length < cliInputSize) :
    ∃ ptrs : List Int, ptrs.length = min (tokens line).length (cliMaxArgCount + 1) ∧
      (parseArg m input argv).argc = ptrs.length ∧
      (parseArg m input argv).argv = argv.write 0 ptrs ∧ (∀ p ∈ ptrs, input ≤ p) ∧
      ∀ i (hi : i < ptrs.length) (hi' : i < (tokens line).length),
        (parseArg m input argv).input.Spells ptrs[i] (tokens line)[i] := by
  have hcut₁ := cutAt_spells h (by decide : (10 : UInt8) ≠ 0) hlen
  have hlen₁ := (List.takeWhile_prefix (p := (· ≠ 10)) (l := line)).length_le
  have hcut₂ := cutAt_spells hcut₁ (by decide : (13 : UInt8) ≠ 0) (by omega)
  have hlen₂ := (List.takeWhile_prefix (p := (· ≠ 13)) (l := line.takeWhile (· ≠ 10))).length_le
  obtain ⟨hpending, -⟩ := strtok_pending hcut₂ (by omega)
  obtain ⟨ptrs, hptrs, hargc, hargv, hlow, hspells, -⟩ :=
    parseLoop_eq (tokens line) argv 0 hpending (Nat.zero_le _)
  exact ⟨ptrs, hptrs, hargc.trans (Nat.zero_add _), hargv, hlow, hspells⟩

/-- A word of a line is no longer than the line. -/
theorem length_words_le {ws : List (List UInt8)} (h : words 32 s = w :: ws) :
    w.length ≤ s.length := by
  rcases words_split 32 s with ⟨k, rfl⟩ | ⟨k, v, rfl, hne, hv⟩ | ⟨k, v, r, rfl, hne, hv⟩
  · have hnil := words_replicate (32 : UInt8) k []
    rw [List.append_nil, h, words_nil] at hnil
    exact absurd hnil (List.cons_ne_nil w ws)
  · rw [words_replicate, words_last hne hv] at h
    rw [← (List.cons.inj h).1, List.length_append]
    omega
  · rw [words_replicate, words_word hne hv] at h
    rw [← (List.cons.inj h).1, List.length_append, List.length_append]
    omega

variable {opens : List UInt8 → Bool} {path line : List UInt8} {input : Int} {stack : Int → Int}

/-- `exec` gets the first token as the name. -/
theorem hang_eq (h : m.Spells input line) (hlen : line.length < cliInputSize) :
    hang opens path m input stack =
      match tokens line with
      | [] => none
      | f :: _ => (exec opens path f).2.map fun p => (p, parseArg m input (Track.start stack)) := by
  obtain ⟨ptrs, hptrs, hargc, hargv, -, hspells⟩ := parseArg_eq (Track.start stack) h hlen
  rw [hang, hargc]
  cases htok : tokens line with
  | nil =>
    rw [htok] at hptrs
    exact if_pos hptrs
  | cons f ws =>
    have hpos : 0 < ptrs.length := by
      rw [hptrs, htok, List.length_cons, cliMaxArgCount]
      omega
    have hfirst : (parseArg m input (Track.start stack)).argv.cell 0 = ptrs[0] := by
      have hcell := Track.write_cell (m := Track.start stack) (a := 0) hpos
      rw [hargv]
      exact hcell
    have hname := hspells 0 hpos (by rw [htok]; exact Nat.zero_lt_succ _)
    simp only [htok, List.getElem_cons_zero] at hname
    have hf : f.length ≤ cliInputSize := by
      have hw := length_words_le htok
      have h₁ := (List.takeWhile_prefix (p := (· ≠ 10)) (l := line)).length_le
      have h₂ := (List.takeWhile_prefix (p := (· ≠ 13)) (l := line.takeWhile (· ≠ 10))).length_le
      omega
    rw [if_neg (by omega), hfirst, stringAt_eq hname hf]

/-- The word behind the last token is the one that lay there. -/
theorem parseArg_behind (h : m.Spells input line) (hlen : line.length < cliInputSize) :
    (parseArg m input (Track.start stack)).argv.cell
        (parseArg m input (Track.start stack)).argc =
      stack (parseArg m input (Track.start stack)).argc := by
  obtain ⟨ptrs, -, hargc, hargv, -, -⟩ := parseArg_eq (Track.start stack) h hlen
  rw [hargv, hargc, Track.write_cell_of_ge (by omega)]
  rfl

/-- The arguments arrive exactly if there are ten at most and, where a program
is run, the word behind the last of them is null already. -/
theorem parseArg_right_iff (opens : List UInt8 → Bool) (path : List UInt8) (m : Track UInt8)
    (input : Int) (stack : Int → Int) (line : List UInt8) (h : m.Spells input line)
    (hlen : line.length < cliInputSize) :
    ArgsRight opens path m input stack line ↔
      (tokens line).length ≤ cliMaxArgCount ∧
        ∀ f ws, tokens line = f :: ws → findBuiltin f = none →
          (opens f ∨ opens (withElf f)) → stack (tokens line).length = 0 := by
  obtain ⟨ptrs, hptrs, hargc, hargv, -, hspells⟩ := parseArg_eq (Track.start stack) h hlen
  have hbehind : _ = stack (parseArg m input (Track.start stack)).argc := parseArg_behind h hlen
  constructor
  · intro hr
    refine ⟨Nat.le_of_not_lt fun hmany => ?_, fun f ws htok hbuiltin hopen => ?_⟩
    · -- the eleventh token goes behind the array
      have hin := hr.inside cliMaxArgCount (by
        rw [hargv, Track.mem_write]
        omega)
      omega
    · obtain ⟨p, hp⟩ := (exec_some_iff opens path f).mpr ⟨hbuiltin, hopen⟩
      have hcall : hang opens path m input stack = _ := hang_eq h hlen
      rw [htok] at hcall
      simp only [hp, Option.map_some] at hcall
      have hended := hr.ended p _ hcall
      rw [hbehind, hr.argc] at hended
      exact hended
  · rintro ⟨hten, hstack⟩
    have hall : ptrs.length = (tokens line).length := by omega
    refine ⟨fun i hi => ?_, hargc.trans hall, fun i hi => ?_, fun p r hcall => ?_⟩
    · rw [hargv, Track.mem_write] at hi
      rcases hi with hi | hi
      · exact absurd hi (Finset.notMem_empty i)
      · omega
    · have hi' : i < ptrs.length := by omega
      have hcell := Track.write_cell (m := Track.start stack) (a := 0) hi'
      rw [Int.zero_add] at hcell
      rw [hargv, hcell]
      exact hspells i hi' hi
    · rw [hang_eq h hlen] at hcall
      cases htok : tokens line with
      | nil =>
        rw [htok] at hcall
        exact absurd hcall.symm (Option.some_ne_none _)
      | cons f ws =>
        rw [htok] at hcall
        obtain ⟨p', hp, heq⟩ := Option.map_eq_some_iff.mp hcall
        obtain ⟨hbuiltin, hopen⟩ := (exec_some_iff opens path f).mp ⟨p', hp⟩
        rw [← (Prod.mk.inj heq).2, hbehind, hargc, hall]
        exact hstack f ws htok hbuiltin hopen

/-- A line in memory, as `fgets` leaves it. -/
def typed (line : List UInt8) : Track UInt8 := (Track.start fun _ => 0).write 1 (line ++ [0])

theorem typed_spells {line : List UInt8} (h : line.all (· ≠ 0)) : (typed line).Spells 1 line :=
  Track.spells_write fun c hc => by simpa using List.all_eq_true.mp h c hc

/-- `cat a.txt`. -/
theorem parseArg_right_iff_cat :
    ArgsRight (fun _ => true) [] (typed (literal "cat a.txt\n")) 1 (fun _ => 0)
        (literal "cat a.txt\n") ↔
      (tokens (literal "cat a.txt\n")).length ≤ cliMaxArgCount ∧
        ∀ f ws, tokens (literal "cat a.txt\n") = f :: ws → findBuiltin f = none →
          ((fun _ => true : List UInt8 → Bool) f ∨
            (fun _ => true : List UInt8 → Bool) (withElf f)) →
          (fun _ => 0 : Int → Int) (tokens (literal "cat a.txt\n")).length = 0 :=
  parseArg_right_iff (fun _ => true) [] (typed (literal "cat a.txt\n")) 1 (fun _ => 0)
    (literal "cat a.txt\n") (typed_spells (by decide)) (by decide)

/-- With a word that is not null on the stack, the program `a` gets more
arguments than were typed. -/
theorem parseArg_right_iff_garbage :
    ¬ArgsRight (fun _ => true) [] (typed (literal "a\n")) 1 (fun _ => 7) (literal "a\n") := by
  intro hr
  have hspells := typed_spells (by decide : (literal "a\n").all (· ≠ 0))
  have htok : tokens (literal "a\n") = [literal "a"] := by decide
  have hexec : (exec (fun _ => true) [] (literal "a")).2 = some [] := by decide
  have hcall : hang (fun _ => true) [] (typed (literal "a\n")) 1 (fun _ => 7) = _ :=
    hang_eq hspells (by decide)
  rw [htok] at hcall
  simp only [hexec, Option.map_some] at hcall
  have hended := hr.ended [] _ hcall
  rw [parseArg_behind hspells (by decide)] at hended
  exact absurd hended (by decide)

/-! ## The count of the kernel -/

theorem stringsCount_words {start : Int → Int} {len : Nat} (hn : len ≤ n)
    (hne : ∀ i < len, start (a + (i : Nat)) ≠ 0) (hend : start (a + len) = 0) :
    stringsCount start n a = len := by
  induction len generalizing a n with
  | zero =>
    cases n with
    | zero => rfl
    | succ n =>
      rw [Int.natCast_zero, Int.add_zero] at hend
      rw [stringsCount, if_pos hend]
  | succ len ih =>
    obtain ⟨n, rfl⟩ : ∃ n', n = n' + 1 := ⟨n - 1, by omega⟩
    have hfirst := hne 0 (Nat.succ_pos len)
    rw [Int.natCast_zero, Int.add_zero] at hfirst
    have hrest : stringsCount start n (a + 1) = len := by
      refine ih (by omega) (fun i hi => ?_) ?_
      · have hi' := hne (i + 1) (by omega)
        have ha : a + 1 + (i : Int) = a + ((i + 1 : Nat) : Int) := by omega
        rw [ha]
        exact hi'
      · have ha : a + 1 + (len : Int) = a + ((len + 1 : Nat) : Int) := by omega
        rw [ha]
        exact hend
    rw [stringsCount, if_neg hfirst, hrest]

/-- Where the arguments arrive, `strings_count` finds as many as were typed. -/
theorem stringsCount_eq (h : m.Spells input line) (hlen : line.length < cliInputSize)
    (hinput : 0 < input) (hr : ArgsRight opens path m input stack line) {p : List UInt8}
    {r : Parsed} (hcall : hang opens path m input stack = some (p, r)) (hn : r.argc ≤ n) :
    stringsCount r.argv.cell n 0 = (tokens line).length := by
  have hended := hr.ended p r hcall
  rw [hang] at hcall
  obtain ⟨-, hrun⟩ := Option.ite_none_left_eq_some.mp hcall
  obtain ⟨p', -, heq⟩ := Option.map_eq_some_iff.mp hrun
  obtain rfl : parseArg m input (Track.start stack) = r := (Prod.mk.inj heq).2
  obtain ⟨ptrs, -, hargc, hargv, hlow, -⟩ := parseArg_eq (Track.start stack) h hlen
  rw [← hr.argc]
  refine stringsCount_words hn (fun i hi => ?_) (by rwa [Int.zero_add])
  have hi' : i < ptrs.length := hargc ▸ hi
  rw [hargv, Track.write_cell hi']
  have := hlow _ (List.getElem_mem hi')
  omega

end Wjos.Shell
