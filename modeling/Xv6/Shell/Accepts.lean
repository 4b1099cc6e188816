import Xv6.Lib.Bytes
import Xv6.Shell.Grammar

/-!
# The parser accepts the grammar

What the parser returns was derived from the tokens that it took, and it does not stop on
a line that has a derivation.  The proofs follow the functions of the parser for the first
and the derivation for the second.  Both see the line only through `wp_gettoken` and
`wp_peek`.
-/

namespace Xv6.Shell

open Hoare

namespace Cmd

variable {σ τ : Type}

def map (f : σ → τ) : Cmd σ → Cmd τ
  | .exec argv => .exec (argv.map f)
  | .redir cmd file mode fd => .redir (cmd.map f) (f file) mode fd
  | .pipe left right => .pipe (left.map f) (right.map f)
  | .list left right => .list (left.map f) (right.map f)
  | .back cmd => .back (cmd.map f)

/-- The strings of a command. -/
def strings : Cmd σ → List σ
  | .exec argv => argv
  | .redir cmd file _ _ => cmd.strings ++ [file]
  | .pipe left right => left.strings ++ right.strings
  | .list left right => left.strings ++ right.strings
  | .back cmd => cmd.strings

theorem map_addArg (f : σ → τ) (a : σ) (cmd : Cmd σ) :
    (cmd.addArg a).map f = (cmd.map f).addArg (f a) := by
  induction cmd with
  | exec argv => simp [addArg, map]
  | redir cmd file mode fd ih => simp [addArg, map, ih]
  | pipe | list | back => rfl

theorem mem_strings_addArg {a b : σ} {cmd : Cmd σ} (h : b ∈ (cmd.addArg a).strings) :
    b = a ∨ b ∈ cmd.strings := by
  induction cmd with
  | exec argv =>
      rcases List.mem_append.mp h with h | h
      · exact .inr h
      · exact .inl (List.mem_singleton.mp h)
  | redir cmd file mode fd ih =>
      rcases List.mem_append.mp h with h | h
      · exact (ih h).imp_right fun h => List.mem_append_left _ h
      · exact .inr (List.mem_append_right _ h)
  | pipe | list | back => exact .inr h

theorem map_iterate_back (f : σ → τ) (n : Nat) (cmd : Cmd σ) :
    (back^[n] cmd).map f = back^[n] (cmd.map f) := by
  induction n generalizing cmd with
  | zero => rfl
  | succ n ih =>
      rw [Function.iterate_succ_apply, Function.iterate_succ_apply, ih]
      rfl

theorem strings_iterate_back (n : Nat) (cmd : Cmd σ) : (back^[n] cmd).strings = cmd.strings := by
  induction n generalizing cmd with
  | zero => rfl
  | succ n ih =>
      rw [Function.iterate_succ_apply, ih]
      rfl

/-- The strings of a command are words of the line. -/
def Placed (line : Text) (cmd : Cmd Span) : Prop := ∀ a ∈ cmd.strings, Shell.Placed line a

end Cmd

theorem wrap_append (cmd : Cmd Text) (rs rs' : List Redir) :
    wrap cmd (rs ++ rs') = wrap (wrap cmd rs) rs' := List.foldl_append

theorem addArg_wrap (w : Text) (cmd : Cmd Text) (rs : List Redir) :
    (wrap cmd rs).addArg w = wrap (cmd.addArg w) rs := by
  induction rs generalizing cmd with
  | nil => rfl
  | cons r rs ih => exact ih _

/-! ## The next token -/

theorem starts_single {c : Char} {t : Token} {ts : List Token} (h : starts [c] ts = true)
    (hlead : ∀ t', t'.lead = some c.toUInt8 → t' = t := by
      intro t' ht
      cases t' <;> first | rfl | (revert ht; decide) | cases ht) :
    ∃ ts', ts = t :: ts' := by
  cases ts with
  | nil => cases h
  | cons t' ts' =>
      refine ⟨ts', ?_⟩
      cases hl : t'.lead with
      | none =>
          have h' : t'.lead.any (strchr (chars [c])) = true := h
          rw [hl] at h'
          cases h'
      | some d =>
          have h' : t'.lead.any (strchr (chars [c])) = true := h
          rw [hl] at h'
          have hd : d = c.toUInt8 := by
            simpa [strchr, chars] using h'
          rw [hlead t' (hl.trans (congrArg some hd))]

theorem starts_amp {ts : List Token} (h : starts ['&'] ts = true) : ∃ ts', ts = .amp :: ts' :=
  starts_single h

theorem starts_bar {ts : List Token} (h : starts ['|'] ts = true) : ∃ ts', ts = .bar :: ts' :=
  starts_single h

theorem starts_semi {ts : List Token} (h : starts [';'] ts = true) : ∃ ts', ts = .semi :: ts' :=
  starts_single h

theorem starts_lparen {ts : List Token} (h : starts ['('] ts = true) : ∃ ts', ts = .lparen :: ts' :=
  starts_single h

theorem starts_rparen {ts : List Token} (h : starts [')'] ts = true) : ∃ ts', ts = .rparen :: ts' :=
  starts_single h

/-- A redirection is next. -/
theorem starts_redir {t : Token} {ts : List Token} :
    starts ['<', '>'] (t :: ts) = true ↔ ∃ mode fd, t.redir = some (mode, fd) := by
  cases t with
  | lt | gt | gtgt => exact ⟨fun _ => ⟨_, _, rfl⟩, fun _ => rfl⟩
  | word w | bar | lparen | rparen | semi | amp =>
      constructor
      · intro h
        cases h
      · rintro ⟨_, _, h⟩
        cases h

theorem redircmd_code {t : Token} {mode fd : Nat} (h : t.redir = some (mode, fd)) (cmd : Cmd Span)
    (file : Span) : redircmd t.code cmd file = .redir cmd file mode fd := by
  cases t <;> cases h <;> rfl

theorem Token.code_word {t : Token} (h : t.code = 'a'.toUInt8) : ∃ w, t = .word w := by
  cases t with
  | word w => exact ⟨w, rfl⟩
  | _ => exact absurd h (by decide)

theorem Token.code_ne_zero (t : Token) : t.code ≠ 0 := by
  cases t with
  | word w => exact (by decide : 'a'.toUInt8 ≠ 0)
  | _ => decide

/-- `peek` for one symbol, which `gettoken` then takes. -/
theorem wp_symbol {α : Type} {c : Char} {t : Token} {x y : Parser α} {Q : α → Text → Prop}
    {E : Stop → Prop} {s : Text} (hsym : strchr symbols c.toUInt8)
    (hc : ∀ {ts}, starts [c] ts = true → ∃ ts', ts = t :: ts')
    (hx : ∀ ts s', lex s = t :: ts → lex s' = ts → s'.length < s.length → Cursor s' s → wp x Q E s')
    (hy : ∀ s', lex s' = lex s → Cursor s' s → starts [c] (lex s) = false → wp y Q E s') :
    wp (do if ← peek [c] then let _ ← gettoken; x else y) Q E s := by
  rw [wp_bind]
  refine wp_peek (by simpa [chars] using hsym) fun s₁ hl₁ hs₁ => ?_
  split
  · rename_i hstart
    obtain ⟨ts', hts'⟩ := hc hstart
    rw [wp_bind]
    refine wp_gettoken (fun hnil => ?_) fun t' ts g s₂ hts hl₂ _ _ hlt hs₂ => ?_
    · rw [hl₁, hts'] at hnil
      cases hnil
    · rw [hl₁, hts'] at hts
      cases hts
      exact hx _ s₂ hts' hl₂ (Nat.lt_of_lt_of_le hlt hs₁.length_le) (hs₂.trans hs₁)
  · rename_i hstart
    exact hy s₁ hl₁ hs₁ (Bool.not_eq_true _ ▸ hstart)

/-! ## What is returned has a derivation -/

section Sound

variable {line s : Text} {cmd : Cmd Span} {n : Nat}

/-- `parseredirs` from `s` to `s'`. -/
structure Redirected (line s : Text) (cmd cmd' : Cmd Span) (s' : Text) : Prop where
  derives : ∃ ts rs, Redirs ts rs ∧ lex s = ts ++ lex s' ∧
    cmd'.map Span.text = wrap (cmd.map Span.text) rs
  placed : cmd'.Placed line
  cursor : Cursor s' s

theorem Placed.mono {a : Span} (h : Placed s a) (hs : Cursor s line) : Placed line a :=
  ⟨h.inside.trans hs, h.split, h.word, h.stop⟩

theorem redirs_sound (n : Nat) : ∀ {cmd : Cmd Span} {s : Text}, Cursor s line → cmd.Placed line →
    wp (redirs n cmd) (Redirected line s cmd) (fun e => e = .fuel → n ≤ s.length) s := by
  induction n with
  | zero => exact fun _ _ _ => Nat.zero_le _
  | succ n ih =>
      intro cmd s hs hp
      unfold redirs
      rw [wp_bind]
      refine wp_peek (by decide) fun s₁ hlex₁ hs₁ => ?_
      split
      · rename_i hstart
        rw [wp_bind]
        refine wp_gettoken (fun hnil => ?_) fun t ts g s₂ hts hlex₂ hret _ hlt₂ hs₂ => ?_
        · rw [← hlex₁, hnil] at hstart
          cases hstart
        rw [hlex₁] at hts
        rw [hts, starts_redir] at hstart
        obtain ⟨mode, fd, hredir⟩ := hstart
        rw [wp_bind]
        refine wp_gettoken (fun _ g' s₃ hret' _ _ => ?_)
          fun t' ts' g' s₃ hts' hlex₃ hret' htext hlt₃ hs₃ => ?_
        · rw [if_pos (by rw [hret']; decide)]
          exact nofun
        split
        · exact nofun
        · rename_i hword
          rw [hret', not_not] at hword
          obtain ⟨w, rfl⟩ := Token.code_word hword
          obtain ⟨hw, hplaced⟩ := htext w rfl
          have hs' : Cursor s₃ s := (hs₃.trans hs₂).trans hs₁
          rw [hret, redircmd_code hredir]
          have hp' : Cmd.Placed line (.redir cmd g'.span mode fd) := by
            intro a ha
            rcases List.mem_append.mp ha with ha | ha
            · exact hp a ha
            · rw [List.mem_singleton.mp ha]
              exact hplaced.mono ((hs₂.trans hs₁).trans hs)
          have hlen := hs₁.length_le
          refine (ih (hs'.trans hs) hp').imp (fun cmd' s' h => ?_) fun e he hf => ?_
          · obtain ⟨⟨ts, rs, hr, hl, hm⟩, hp'', hsuf⟩ := h
            refine ⟨⟨t :: .word g'.span.text :: ts, ⟨g'.span.text, mode, fd⟩ :: rs,
              .cons hredir hr, ?_, hm⟩, hp'', hsuf.trans hs'⟩
            rw [hts, ← hlex₂, hts', ← hlex₃, hl, hw]
            rfl
          · have := he hf
            omega
      · exact ⟨⟨[], [], .nil, hlex₁.symm, rfl⟩, hp, hs₁⟩

theorem parseredirs_sound (hs : Cursor s line) (hp : cmd.Placed line) :
    wp (parseredirs cmd) (Redirected line s cmd) (· ≠ .fuel) s := by
  unfold parseredirs
  rw [wp_bind, wp_get]
  refine (redirs_sound _ hs hp).imp (fun _ _ h => h) fun e he hf => ?_
  have := he hf
  omega

/-- The loop of `parseexec` from `s` to `s'`, with `argc` words before. -/
structure Extended (line s : Text) (argc : Nat) (ws : List Text) (rs : List Redir)
    (cmd : Cmd Span) (s' : Text) : Prop where
  derives : ∃ ts ws' rs', Words ts ws' rs' ∧ lex s = ts ++ lex s' ∧
    cmd.map Span.text = wrap (.exec (ws ++ ws')) (rs ++ rs') ∧ argc + ws'.length ≤ MAXARGS - 1
  placed : cmd.Placed line
  cursor : Cursor s' s

theorem args_sound (n : Nat) : ∀ {argc : Nat} {cmd : Cmd Span} {s : Text} {ws : List Text}
    {rs : List Redir}, Cursor s line → cmd.Placed line → argc ≤ MAXARGS - 1 →
    cmd.map Span.text = wrap (.exec ws) rs →
    wp (args n argc cmd) (Extended line s argc ws rs) (fun e => e = .fuel → n ≤ s.length) s := by
  induction n with
  | zero => exact fun _ _ _ _ _ => Nat.zero_le _
  | succ n ih =>
      intro argc cmd s ws rs hs hp hargc hmap
      -- nothing more is taken
      have hdone : ∀ s', lex s' = lex s → Cursor s' s → Extended line s argc ws rs cmd s' := by
        intro s' hlex hsuf
        refine ⟨⟨[], [], [], .nil, hlex.symm, ?_, hargc⟩, hp, hsuf⟩
        rw [List.append_nil, List.append_nil]
        exact hmap
      unfold args
      rw [wp_bind]
      refine wp_peek (by decide) fun s₁ hlex₁ hs₁ => ?_
      split
      · exact hdone s₁ hlex₁ hs₁
      rw [wp_bind]
      refine wp_gettoken (fun hnil g s₂ hret hlex₂ hs₂ => ?_)
        fun t ts g s₂ hts hlex₂ hret htext hlt hs₂ => ?_
      · rw [if_pos hret]
        exact hdone s₂ (by rw [hlex₂, ← hlex₁, hnil]) (hs₂.trans hs₁)
      rw [if_neg (by rw [hret]; exact t.code_ne_zero)]
      split
      · exact nofun
      rename_i hword
      rw [hret, not_not] at hword
      obtain ⟨w, rfl⟩ := Token.code_word hword
      obtain ⟨hw, hplaced⟩ := htext w rfl
      split
      · exact nofun
      rename_i hmax
      have hs₂' : Cursor s₂ s := hs₂.trans hs₁
      have hp' : (cmd.addArg g.span).Placed line := by
        intro a ha
        rcases Cmd.mem_strings_addArg ha with rfl | ha
        · exact hplaced.mono (hs₁.trans hs)
        · exact hp a ha
      rw [wp_bind]
      refine (parseredirs_sound (hs₂'.trans hs) hp').imp (fun cmd' s₃ h => ?_) fun e he hf =>
        absurd hf he
      obtain ⟨⟨ts₃, rs₃, hr₃, hl₃, hm₃⟩, hp₃, hs₃⟩ := h
      have hmap' : cmd'.map Span.text = wrap (.exec (ws ++ [w])) (rs ++ rs₃) := by
        rw [hm₃, Cmd.map_addArg, hmap, addArg_wrap, hw, wrap_append]
        rfl
      have hargc' : argc + 1 ≤ MAXARGS - 1 := by omega
      refine (ih ((hs₃.trans hs₂').trans hs) hp₃ hargc' hmap').imp (fun cmd'' s₄ h => ?_)
        fun e he hf => ?_
      · obtain ⟨⟨ts₄, ws₄, rs₄, hw₄, hl₄, hm₄, hc₄⟩, hp₄, hs₄⟩ := h
        refine ⟨⟨.word w :: (ts₃ ++ ts₄), w :: ws₄, rs₃ ++ rs₄, .cons hr₃ hw₄, ?_, ?_, ?_⟩, hp₄,
          (hs₄.trans hs₃).trans hs₂'⟩
        · rw [← hlex₁, hts, ← hlex₂, hl₃, hl₄]
          simp
        · rw [hm₄]
          simp
        · rw [List.length_cons]
          omega
      · have h1 := he hf
        have h2 := hs₁.length_le
        have h3 := hs₃.length_le
        omega

theorem backs_sound (n : Nat) : ∀ {cmd : Cmd Span} {s : Text},
    wp (backs n cmd) (fun cmd' s' => (∃ k, lex s = List.replicate k .amp ++ lex s' ∧
      cmd' = Cmd.back^[k] cmd) ∧ Cursor s' s) (fun e => e = .fuel → n ≤ s.length) s := by
  induction n with
  | zero => exact fun _ => Nat.zero_le _
  | succ n ih =>
      intro cmd s
      unfold backs
      refine wp_symbol (by decide) starts_amp (fun ts s₁ hts hl₁ hlt hs₁ => ?_)
        fun s₁ hl₁ hs₁ _ => ⟨⟨0, hl₁.symm, rfl⟩, hs₁⟩
      refine ih.imp (fun cmd' s' h => ?_) fun e he hf => ?_
      · obtain ⟨⟨k, hl, hb⟩, hsuf⟩ := h
        refine ⟨⟨k + 1, ?_, ?_⟩, hsuf.trans hs₁⟩
        · rw [hts, ← hl₁, hl]
          rfl
        · rw [hb, Function.iterate_succ_apply]
      · have := he hf
        omega

/-- A function of the parser from `s` to `s'`. -/
structure Parsed (k : Kind) (line s : Text) (cmd : Cmd Span) (s' : Text) : Prop where
  derives : ∃ ts, Derives k ts (cmd.map Span.text) ∧ lex s = ts ++ lex s'
  placed : cmd.Placed line
  cursor : Cursor s' s

/-- The functions with the bound `n`.  They reach the bound only if the line is too long. -/
structure Sound (line : Text) (n : Nat) : Prop where
  ofLine : ∀ {s}, Cursor s line →
    wp (parseline n) (Parsed .line line s) (fun e => e = .fuel → n < 4 * s.length + 4) s
  ofPipe : ∀ {s}, Cursor s line →
    wp (parsepipe n) (Parsed .pipe line s) (fun e => e = .fuel → n < 4 * s.length + 3) s
  ofExec : ∀ {s}, Cursor s line →
    wp (parseexec n) (Parsed .exec line s) (fun e => e = .fuel → n < 4 * s.length + 2) s
  ofBlock : ∀ {s}, Cursor s line →
    wp (parseblock n) (Parsed .exec line s) (fun e => e = .fuel → n < 4 * s.length + 1) s

theorem Sound.parseline (h : Sound line n) (hs : Cursor s line) :
    wp (parseline (n + 1)) (Parsed .line line s) (fun e => e = .fuel → n + 1 < 4 * s.length + 4)
      s := by
  unfold Shell.parseline
  rw [wp_bind]
  refine (h.ofPipe hs).imp (fun cmd s₁ h₁ => ?_) fun e he hf => by have := he hf; omega
  obtain ⟨⟨ts₁, hd₁, hl₁⟩, hp₁, hs₁⟩ := h₁
  rw [wp_bind, wp_get, wp_bind]
  refine (backs_sound _).imp (fun cmd₂ s₂ h₂ => ?_) fun e he hf => by have := he hf; omega
  obtain ⟨⟨k, hl₂, rfl⟩, hs₂⟩ := h₂
  have hs₂' : Cursor s₂ s := hs₂.trans hs₁
  have hp₂ : (Cmd.back^[k] cmd).Placed line := by
    intro a ha
    rw [Cmd.strings_iterate_back] at ha
    exact hp₁ a ha
  refine wp_symbol (by decide) starts_semi (fun ts s₃ hts hl₃ hlt hs₃ => ?_)
    fun s₃ hl₃ hs₃ _ => ?_
  · have hs₃' : Cursor s₃ s := hs₃.trans hs₂'
    rw [wp_bind]
    refine (h.ofLine (hs₃'.trans hs)).imp (fun right s₄ h₄ => ?_) fun e he hf => ?_
    · obtain ⟨⟨ts₄, hd₄, hl₄⟩, hp₄, hs₄⟩ := h₄
      refine ⟨⟨ts₁ ++ List.replicate k .amp ++ .semi :: ts₄, ?_, ?_⟩, fun a ha => ?_,
        hs₄.trans hs₃'⟩
      · have hd := Derives.list k hd₁ hd₄
        rw [← Cmd.map_iterate_back] at hd
        exact hd
      · rw [hl₁, hl₂, hts, ← hl₃, hl₄]
        simp
      · exact (List.mem_append.mp ha).elim (hp₂ a) (hp₄ a)
    · have h1 := he hf
      have h2 := hs₂'.length_le
      omega
  · refine ⟨⟨ts₁ ++ List.replicate k .amp, ?_, ?_⟩, hp₂, hs₃.trans hs₂'⟩
    · rw [Cmd.map_iterate_back]
      exact .backs k hd₁
    · rw [hl₁, hl₂, hl₃, List.append_assoc]

theorem Sound.parsepipe (h : Sound line n) (hs : Cursor s line) :
    wp (parsepipe (n + 1)) (Parsed .pipe line s) (fun e => e = .fuel → n + 1 < 4 * s.length + 3)
      s := by
  unfold Shell.parsepipe
  rw [wp_bind]
  refine (h.ofExec hs).imp (fun cmd s₁ h₁ => ?_) fun e he hf => by have := he hf; omega
  obtain ⟨⟨ts₁, hd₁, hl₁⟩, hp₁, hs₁⟩ := h₁
  refine wp_symbol (by decide) starts_bar (fun ts s₂ hts hl₂ hlt hs₂ => ?_)
    fun s₂ hl₂ hs₂ _ => ⟨⟨ts₁, .last hd₁, by rw [hl₁, hl₂]⟩, hp₁, hs₂.trans hs₁⟩
  have hs₂' : Cursor s₂ s := hs₂.trans hs₁
  rw [wp_bind]
  refine (h.ofPipe (hs₂'.trans hs)).imp (fun right s₃ h₃ => ?_) fun e he hf => ?_
  · obtain ⟨⟨ts₃, hd₃, hl₃⟩, hp₃, hs₃⟩ := h₃
    refine ⟨⟨ts₁ ++ .bar :: ts₃, .pipe hd₁ hd₃, ?_⟩, fun a ha => ?_, hs₃.trans hs₂'⟩
    · rw [hl₁, hts, ← hl₂, hl₃]
      simp
    · exact (List.mem_append.mp ha).elim (hp₁ a) (hp₃ a)
  · have h1 := he hf
    have h2 := hs₁.length_le
    omega

theorem Sound.parseexec (h : Sound line n) (hs : Cursor s line) :
    wp (parseexec (n + 1)) (Parsed .exec line s) (fun e => e = .fuel → n + 1 < 4 * s.length + 2)
      s := by
  unfold Shell.parseexec
  rw [wp_bind]
  refine wp_peek (by decide) fun s₁ hl₁ hs₁ => ?_
  split
  · refine (h.ofBlock (hs₁.trans hs)).imp (fun cmd s₂ h₂ => ?_) fun e he hf => ?_
    · obtain ⟨⟨ts, hd, hl⟩, hp, hs₂⟩ := h₂
      exact ⟨⟨ts, hd, hl₁ ▸ hl⟩, hp, hs₂.trans hs₁⟩
    · have h1 := he hf
      have h2 := hs₁.length_le
      omega
  · rw [wp_bind]
    have hp : (Cmd.exec []).Placed line := nofun
    refine (parseredirs_sound (hs₁.trans hs) hp).imp (fun cmd s₂ h₂ => ?_) fun e he hf =>
      absurd hf he
    obtain ⟨⟨ts₂, rs₂, hr₂, hl₂, hm₂⟩, hp₂, hs₂⟩ := h₂
    rw [wp_bind, wp_get]
    change cmd.map Span.text = wrap (.exec []) rs₂ at hm₂
    have hs₂' : Cursor s₂ s := hs₂.trans hs₁
    refine (args_sound _ (hs₂'.trans hs) hp₂ (Nat.zero_le _) hm₂).imp (fun cmd' s₃ h₃ => ?_)
      fun e he hf => by have := he hf; omega
    obtain ⟨⟨ts₃, ws₃, rs₃, hw₃, hl₃, hm₃, hc₃⟩, hp₃, hs₃⟩ := h₃
    refine ⟨⟨ts₂ ++ ts₃, ?_, ?_⟩, hp₃, hs₃.trans hs₂'⟩
    · rw [hm₃]
      rw [Nat.zero_add] at hc₃
      exact .simple hr₂ hw₃ hc₃
    · rw [← hl₁, hl₂, hl₃, List.append_assoc]

theorem Sound.parseblock (h : Sound line n) (hs : Cursor s line) :
    wp (parseblock (n + 1)) (Parsed .exec line s) (fun e => e = .fuel → n + 1 < 4 * s.length + 1)
      s := by
  unfold Shell.parseblock
  refine wp_symbol (by decide) starts_lparen (fun ts₁ s₁ hts₁ hl₁ hlt₁ hs₁ => ?_)
    fun _ _ _ _ => nofun
  rw [wp_bind]
  refine (h.ofLine (hs₁.trans hs)).imp (fun cmd s₂ h₂ => ?_) fun e he hf => by
    have := he hf; omega
  obtain ⟨⟨ts₂, hd₂, hl₂⟩, hp₂, hs₂⟩ := h₂
  refine wp_symbol (by decide) starts_rparen (fun ts₃ s₃ hts₃ hl₃ hlt₃ hs₃ => ?_)
    fun _ _ _ _ => nofun
  have hs₃' : Cursor s₃ s := (hs₃.trans hs₂).trans hs₁
  refine (parseredirs_sound (hs₃'.trans hs) hp₂).imp (fun cmd' s₄ h₄ => ?_) fun e he hf =>
    absurd hf he
  obtain ⟨⟨ts₄, rs₄, hr₄, hl₄, hm₄⟩, hp₄, hs₄⟩ := h₄
  refine ⟨⟨.lparen :: (ts₂ ++ .rparen :: ts₄), ?_, ?_⟩, hp₄, hs₄.trans hs₃'⟩
  · rw [hm₄]
    exact .block hd₂ hr₄
  · rw [hts₁, ← hl₁, hl₂, hts₃, ← hl₃, hl₄]
    simp

theorem sound (line : Text) (n : Nat) : Sound line n := by
  induction n with
  | zero =>
      exact ⟨fun _ _ => by omega, fun _ _ => by omega, fun _ _ => by omega, fun _ _ => by omega⟩
  | succ n ih => exact ⟨ih.parseline, ih.parsepipe, ih.parseexec, ih.parseblock⟩

end Sound

/-! ## A derivation is found -/

/-- What may come after a phrase. -/
def Kind.follow : Kind → List Char
  | .line => [')']
  | .pipe => [')', '&', ';']
  | .exec => ['|', ')', '&', ';']

/-- `parseline`, `parsepipe` or `parseexec`. -/
def Kind.parse : Kind → Nat → Parser (Cmd Span)
  | .line => parseline
  | .pipe => parsepipe
  | .exec => parseexec

def Follows (k : Kind) (ts : List Token) : Prop := ts = [] ∨ starts k.follow ts = true

section Complete

variable {rest ts : List Token} {rs : List Redir} {ws : List Text}

/-- The parser reads a phrase that stands for `cmd` and leaves the tokens `rest`. -/
def Finds (rest : List Token) (cmd : Cmd Text) (cmd' : Cmd Span) (s' : Text) : Prop :=
  lex s' = rest ∧ cmd'.map Span.text = cmd

theorem redirs_complete (h : Redirs ts rs) :
    ∀ (n : Nat) {cmd : Cmd Span} {s : Text}, lex s = ts ++ rest →
      starts ['<', '>'] rest = false →
      wp (redirs n cmd) (Finds rest (wrap (cmd.map Span.text) rs)) (· = .fuel) s := by
  induction h with
  | nil =>
      intro n cmd s hl hrest
      cases n with
      | zero => exact rfl
      | succ n =>
          unfold redirs
          rw [wp_bind]
          refine wp_peek (by decide) fun s₁ hl₁ hs₁ => ?_
          rw [hl, List.nil_append, hrest, if_neg Bool.false_ne_true]
          exact ⟨hl₁.trans hl, rfl⟩
  | @cons op file mode fd ts rs hop hr ih =>
      intro n cmd s hl hrest
      cases n with
      | zero => exact rfl
      | succ n =>
          unfold redirs
          rw [wp_bind]
          refine wp_peek (by decide) fun s₁ hl₁ hs₁ => ?_
          rw [hl, List.cons_append, if_pos (starts_redir.mpr ⟨mode, fd, hop⟩), wp_bind]
          refine wp_gettoken (fun hnil => ?_) fun t ts₂ g s₂ hts₂ hl₂ hret₂ _ _ _ => ?_
          · rw [hl₁, hl] at hnil
            cases hnil
          rw [hl₁, hl] at hts₂
          cases hts₂
          rw [wp_bind]
          refine wp_gettoken (fun hnil => ?_) fun t ts₃ g' s₃ hts₃ hl₃ hret₃ htext _ _ => ?_
          · rw [hl₂] at hnil
            cases hnil
          rw [hl₂] at hts₃
          cases hts₃
          have hword : ¬ g'.ret ≠ 'a'.toUInt8 := not_not_intro hret₃
          rw [if_neg hword, hret₂, redircmd_code hop]
          refine (ih n hl₃ hrest).mono fun cmd' s' h => ?_
          rw [← (htext file rfl).1]
          exact h

theorem parseredirs_complete {cmd : Cmd Span} {s : Text} (h : Redirs ts rs)
    (hl : lex s = ts ++ rest) (hrest : starts ['<', '>'] rest = false) :
    wp (parseredirs cmd) (Finds rest (wrap (cmd.map Span.text) rs)) (· = .fuel) s := by
  unfold parseredirs
  rw [wp_bind, wp_get]
  exact redirs_complete h _ hl hrest

theorem Follows.exec_cases (h : Follows .exec rest) :
    rest = [] ∨ ∃ t ts, rest = t :: ts ∧ (t = .bar ∨ t = .rparen ∨ t = .amp ∨ t = .semi) := by
  rcases h with h | h
  · exact .inl h
  cases rest with
  | nil => exact .inl rfl
  | cons t ts =>
      refine .inr ⟨t, ts, rfl, ?_⟩
      cases t with
      | bar => exact .inl rfl
      | rparen => exact .inr (.inl rfl)
      | amp => exact .inr (.inr (.inl rfl))
      | semi => exact .inr (.inr (.inr rfl))
      | word w | lparen | lt | gt | gtgt => cases h

/-- No redirection and no `(` comes after a command. -/
theorem Follows.exec_starts (h : Follows .exec rest) :
    starts ['<', '>'] rest = false ∧ starts ['('] rest = false := by
  rcases h.exec_cases with rfl | ⟨t, ts, rfl, rfl | rfl | rfl | rfl⟩ <;> exact ⟨rfl, rfl⟩

theorem Follows.pipe_cases (h : Follows .pipe rest) :
    Follows .exec rest ∧ starts ['|'] rest = false := by
  rcases h with rfl | h
  · exact ⟨.inl rfl, rfl⟩
  cases rest with
  | nil => exact ⟨.inl rfl, rfl⟩
  | cons t ts =>
      cases t with
      | rparen | amp | semi => exact ⟨.inr rfl, rfl⟩
      | word w | bar | lparen | lt | gt | gtgt => cases h

theorem Follows.line_cases (h : Follows .line rest) :
    Follows .pipe rest ∧ starts ['&'] rest = false ∧ starts [';'] rest = false := by
  rcases h with rfl | h
  · exact ⟨.inl rfl, rfl, rfl⟩
  cases rest with
  | nil => exact ⟨.inl rfl, rfl, rfl⟩
  | cons t ts =>
      cases t with
      | rparen => exact ⟨.inr rfl, rfl, rfl⟩
      | word w | bar | lparen | lt | gt | gtgt | amp | semi => cases h

theorem Words.starts (h : Words ts ws rs) (hrest : Follows .exec rest) :
    Shell.starts ['<', '>'] (ts ++ rest) = false ∧ Shell.starts ['('] (ts ++ rest) = false := by
  cases h with
  | nil => exact hrest.exec_starts
  | cons hr hw => exact ⟨rfl, rfl⟩

theorem args_complete (h : Words ts ws rs) :
    ∀ (n : Nat) {argc : Nat} {cmd : Cmd Span} {s : Text} {ws₀ : List Text} {rs₀ : List Redir},
      lex s = ts ++ rest → Follows .exec rest → argc + ws.length ≤ MAXARGS - 1 →
      cmd.map Span.text = wrap (.exec ws₀) rs₀ →
      wp (args n argc cmd) (Finds rest (wrap (.exec (ws₀ ++ ws)) (rs₀ ++ rs))) (· = .fuel) s := by
  induction h with
  | nil =>
      intro n argc cmd s ws₀ rs₀ hl hrest hmax hmap
      rw [List.append_nil, List.append_nil]
      cases n with
      | zero => exact rfl
      | succ n =>
          unfold args
          rw [wp_bind]
          refine wp_peek (by decide) fun s₁ hl₁ hs₁ => ?_
          rw [hl, List.nil_append] at hl₁ ⊢
          rcases hrest with rfl | hrest
          · rw [if_neg (show ¬ starts ['|', ')', '&', ';'] [] = true from Bool.false_ne_true),
              wp_bind]
            refine wp_gettoken (fun hnil g s₂ hret hl₂ hs₂ => ?_)
              fun t ts g s₂ hts => ?_
            · rw [if_pos hret]
              exact ⟨hl₂, hmap⟩
            · rw [hl₁] at hts
              cases hts
          · change starts ['|', ')', '&', ';'] rest = true at hrest
            rw [if_pos hrest]
            exact ⟨hl₁, hmap⟩
  | @cons w ts ts' ws rs rs' hr hw ih =>
      intro n argc cmd s ws₀ rs₀ hl hrest hmax hmap
      cases n with
      | zero => exact rfl
      | succ n =>
          unfold args
          rw [wp_bind]
          refine wp_peek (by decide) fun s₁ hl₁ hs₁ => ?_
          rw [hl] at hl₁ ⊢
          have hnot : ¬ starts ['|', ')', '&', ';'] (.word w :: (ts ++ ts') ++ rest) = true :=
            Bool.false_ne_true
          rw [if_neg hnot, wp_bind]
          refine wp_gettoken (fun hnil => ?_) fun t ts₂ g s₂ hts₂ hl₂ hret htext _ _ => ?_
          · rw [hl₁] at hnil
            cases hnil
          rw [hl₁] at hts₂
          cases hts₂
          have hret' : g.ret = 'a'.toUInt8 := hret
          rw [List.length_cons] at hmax
          rw [if_neg (by rw [hret']; decide), if_neg (not_not_intro hret'), if_neg (by omega),
            wp_bind]
          have hl₂' : lex s₂ = ts ++ (ts' ++ rest) := by
            rw [hl₂]
            exact List.append_assoc ..
          refine (parseredirs_complete hr hl₂' (hw.starts hrest).1).mono fun cmd' s₃ h => ?_
          obtain ⟨hl₃, hm₃⟩ := h
          have hmap' : cmd'.map Span.text = wrap (.exec (ws₀ ++ [w])) (rs₀ ++ rs) := by
            rw [hm₃, Cmd.map_addArg, hmap, addArg_wrap, (htext w rfl).1, wrap_append]
            rfl
          have hmax' : argc + 1 + ws.length ≤ MAXARGS - 1 := by omega
          have hgo := ih n hl₃ hrest hmax' hmap'
          rw [List.append_assoc, List.append_assoc] at hgo
          exact hgo

theorem backs_complete (k : Nat) : ∀ (n : Nat) {cmd : Cmd Span} {s : Text},
    lex s = List.replicate k .amp ++ rest → starts ['&'] rest = false →
    wp (backs n cmd) (fun cmd' s' => lex s' = rest ∧ cmd' = Cmd.back^[k] cmd) (· = .fuel) s := by
  induction k with
  | zero =>
      intro n cmd s hl hrest
      cases n with
      | zero => exact rfl
      | succ n =>
          unfold backs
          refine wp_symbol (by decide) starts_amp (fun ts s₁ hts => ?_)
            fun s₁ hl₁ _ _ => ⟨hl₁.trans hl, rfl⟩
          rw [← show lex s = rest from hl, hts] at hrest
          cases hrest
  | succ k ih =>
      intro n cmd s hl hrest
      cases n with
      | zero => exact rfl
      | succ n =>
          unfold backs
          refine wp_symbol (by decide) starts_amp (fun ts s₁ hts hl₁ _ _ => ?_)
            fun s₁ _ _ hnot => ?_
          · rw [hl] at hts
            cases hts
            exact ih n hl₁ hrest
          · rw [hl] at hnot
            cases hnot

/-- The parser of a kind finds the command before whatever may follow. -/
def Completes (k : Kind) (ts : List Token) (cmd : Cmd Text) : Prop :=
  ∀ (rest : List Token) (n : Nat) (s : Text), lex s = ts ++ rest → Follows k rest →
    wp (k.parse n) (Finds rest cmd) (· = .fuel) s

theorem Completes.of_succ {k : Kind} {cmd : Cmd Text}
    (h : ∀ (rest : List Token) (n : Nat) (s : Text), lex s = ts ++ rest → Follows k rest →
      wp (k.parse (n + 1)) (Finds rest cmd) (· = .fuel) s) : Completes k ts cmd := by
  intro rest n s hl hrest
  cases n with
  | zero => cases k <;> exact rfl
  | succ n => exact h rest n s hl hrest

theorem completes_simple {ts' : List Token} {ws : List Text} {rs rs' : List Redir}
    (hr : Redirs ts rs) (hw : Words ts' ws rs') (hmax : ws.length ≤ MAXARGS - 1) :
    Completes .exec (ts ++ ts') (wrap (.exec ws) (rs ++ rs')) := .of_succ <| by
  intro rest n s hl hrest
  rw [List.append_assoc] at hl
  have hnot : starts ['('] (ts ++ (ts' ++ rest)) = false := by
    cases hr with
    | nil => exact (hw.starts hrest).2
    | @cons op _ _ _ _ _ hop _ => cases op <;> first | rfl | cases hop
  show wp (parseexec (n + 1)) _ _ s
  unfold parseexec
  rw [wp_bind]
  refine wp_peek (by decide) fun s₁ hl₁ hs₁ => ?_
  rw [hl] at hl₁ ⊢
  rw [hnot, if_neg Bool.false_ne_true, wp_bind]
  refine (parseredirs_complete hr hl₁ (hw.starts hrest).1).mono fun cmd s₂ h₂ => ?_
  rw [wp_bind, wp_get]
  exact args_complete hw _ h₂.1 hrest (by rwa [Nat.zero_add]) h₂.2

theorem completes_block {ts' : List Token} {cmd : Cmd Text} {rs : List Redir}
    (ih : Completes .line ts cmd) (hr : Redirs ts' rs) :
    Completes .exec (.lparen :: (ts ++ .rparen :: ts')) (wrap cmd rs) := .of_succ <| by
  intro rest n s hl hrest
  have hline : Follows .line (.rparen :: (ts' ++ rest)) := .inr rfl
  show wp (parseexec (n + 1)) _ _ s
  unfold parseexec
  rw [wp_bind]
  refine wp_peek (by decide) fun s₁ hl₁ hs₁ => ?_
  rw [hl] at hl₁ ⊢
  rw [if_pos (show starts _ _ = true from rfl)]
  cases n with
  | zero => exact rfl
  | succ n =>
      unfold parseblock
      refine wp_symbol (by decide) starts_lparen (fun ts₂ s₂ hts₂ hl₂ _ _ => ?_)
        fun s₂ _ _ hnot => ?_
      · rw [hl₁] at hts₂
        cases hts₂
        have hl₂' : lex s₂ = ts ++ .rparen :: (ts' ++ rest) := by
          rw [hl₂]
          exact List.append_assoc ..
        rw [wp_bind]
        refine (ih _ n _ hl₂' hline).mono fun cmd' s₃ h₃ => ?_
        obtain ⟨hl₃, hm₃⟩ := h₃
        refine wp_symbol (by decide) starts_rparen (fun ts₄ s₄ hts₄ hl₄ _ _ => ?_)
          fun s₄ _ _ hnot => ?_
        · rw [hl₃] at hts₄
          cases hts₄
          rw [← hm₃]
          exact parseredirs_complete hr hl₄ hrest.exec_starts.1
        · rw [hl₃] at hnot
          cases hnot
      · rw [hl₁] at hnot
        cases hnot

theorem completes_last {cmd : Cmd Text} (ih : Completes .exec ts cmd) :
    Completes .pipe ts cmd := .of_succ <| by
  intro rest n s hl hrest
  show wp (parsepipe (n + 1)) _ _ s
  unfold parsepipe
  rw [wp_bind]
  refine (ih _ n _ hl hrest.pipe_cases.1).mono fun cmd' s₁ h₁ => ?_
  refine wp_symbol (by decide) starts_bar (fun ts₂ s₂ hts₂ => ?_)
    fun s₂ hl₂ _ _ => ⟨hl₂.trans h₁.1, h₁.2⟩
  have hnot := hrest.pipe_cases.2
  rw [← h₁.1, hts₂] at hnot
  cases hnot

theorem completes_pipe {ts' : List Token} {left right : Cmd Text}
    (ihl : Completes .exec ts left) (ihr : Completes .pipe ts' right) :
    Completes .pipe (ts ++ .bar :: ts') (.pipe left right) := .of_succ <| by
  intro rest n s hlex hrest
  rw [List.append_assoc] at hlex
  show wp (parsepipe (n + 1)) _ _ s
  unfold parsepipe
  rw [wp_bind]
  refine (ihl _ n _ hlex (.inr rfl)).mono fun cmd' s₁ h₁ => ?_
  refine wp_symbol (by decide) starts_bar (fun ts₂ s₂ hts₂ hl₂ _ _ => ?_)
    fun s₂ _ _ hnot => ?_
  · rw [h₁.1] at hts₂
    cases hts₂
    rw [wp_bind]
    refine (ihr _ n _ hl₂ hrest).mono fun cmd'' s₃ h₃ => ⟨h₃.1, ?_⟩
    rw [← h₁.2, ← h₃.2]
    rfl
  · rw [h₁.1] at hnot
    cases hnot

theorem completes_backs {cmd : Cmd Text} (k : Nat) (ih : Completes .pipe ts cmd) :
    Completes .line (ts ++ List.replicate k .amp) (Cmd.back^[k] cmd) := .of_succ <| by
  intro rest n s hl hrest
  obtain ⟨hpipe, hamp, hsemi⟩ := hrest.line_cases
  rw [List.append_assoc] at hl
  have hf : Follows .pipe (List.replicate k .amp ++ rest) := by
    cases k with
    | zero => exact hpipe
    | succ k => exact .inr rfl
  show wp (parseline (n + 1)) _ _ s
  unfold parseline
  rw [wp_bind]
  refine (ih _ n _ hl hf).mono fun cmd' s₁ h₁ => ?_
  rw [wp_bind, wp_get, wp_bind]
  refine (backs_complete k _ h₁.1 hamp).mono fun cmd'' s₂ h₂ => ?_
  refine wp_symbol (by decide) starts_semi (fun ts₃ s₃ hts₃ => ?_)
    fun s₃ hl₃ _ _ => ⟨hl₃.trans h₂.1, ?_⟩
  · rw [← h₂.1, hts₃] at hsemi
    cases hsemi
  · rw [h₂.2, Cmd.map_iterate_back, h₁.2]

theorem completes_list {ts' : List Token} {left right : Cmd Text} (k : Nat)
    (ihl : Completes .pipe ts left) (ihr : Completes .line ts' right) :
    Completes .line (ts ++ List.replicate k .amp ++ .semi :: ts')
      (.list (Cmd.back^[k] left) right) := .of_succ <| by
  intro rest n s hlex hrest
  rw [List.append_assoc, List.append_assoc] at hlex
  have hf : Follows .pipe (List.replicate k .amp ++ (.semi :: ts' ++ rest)) := by
    cases k with
    | zero => exact .inr rfl
    | succ k => exact .inr rfl
  show wp (parseline (n + 1)) _ _ s
  unfold parseline
  rw [wp_bind]
  refine (ihl _ n _ hlex hf).mono fun cmd' s₁ h₁ => ?_
  rw [wp_bind, wp_get, wp_bind]
  refine (backs_complete k _ h₁.1 rfl).mono fun cmd'' s₂ h₂ => ?_
  refine wp_symbol (by decide) starts_semi (fun ts₃ s₃ hts₃ hl₃ _ _ => ?_)
    fun s₃ _ _ hnot => ?_
  · rw [h₂.1] at hts₃
    cases hts₃
    rw [wp_bind]
    refine (ihr _ n _ hl₃ hrest).mono fun cmd₄ s₄ h₄ => ⟨h₄.1, ?_⟩
    rw [← h₄.2, ← h₁.2, ← Cmd.map_iterate_back, ← h₂.2]
    rfl
  · rw [h₂.1] at hnot
    cases hnot

theorem complete {k : Kind} {cmd : Cmd Text} (h : Derives k ts cmd) : Completes k ts cmd := by
  induction h with
  | simple hr hw hmax => exact completes_simple hr hw hmax
  | block _ hr ih => exact completes_block ih hr
  | last _ ih => exact completes_last ih
  | pipe _ _ ihl ihr => exact completes_pipe ihl ihr
  | backs k _ ih => exact completes_backs k ih
  | list k _ _ ihl ihr => exact completes_list k ihl ihr

end Complete

/-! ## The strings -/

/-- The string at an offset of a memory. -/
def cstring (mem : List UInt8) (i : Nat) : List UInt8 := Bytes.cString (mem.drop i)

theorem nulterminate_eq (len : Nat) (cmd : Cmd Span) (mem : List UInt8) :
    nulterminate len cmd mem =
      cmd.strings.foldl (fun mem a => mem.set (len - a.stop.length) 0) mem := by
  induction cmd generalizing mem with
  | exec argv => rfl
  | redir cmd file mode fd ih =>
      rw [nulterminate, ih, Cmd.strings, List.foldl_append]
      rfl
  | pipe left right ihl ihr => rw [nulterminate, ihl, ihr, Cmd.strings, List.foldl_append]
  | list left right ihl ihr => rw [nulterminate, ihl, ihr, Cmd.strings, List.foldl_append]
  | back cmd ih => rw [nulterminate, ih, Cmd.strings]

section Strings

variable {α : Type} {pos : α → Nat} {l : List α} {i : Nat}

theorem foldl_set_of_not_mem (h : ∀ a ∈ l, pos a ≠ i) : ∀ mem : List UInt8,
    (l.foldl (fun mem a => mem.set (pos a) 0) mem)[i]? = mem[i]? := by
  induction l with
  | nil => exact fun _ => rfl
  | cons a l ih =>
      intro mem
      rw [List.foldl_cons, ih fun b hb => h b (List.mem_cons_of_mem _ hb),
        List.getElem?_set_ne (h a List.mem_cons_self)]

theorem foldl_set_of_mem (h : ∃ a ∈ l, pos a = i) : ∀ mem : List UInt8, i < mem.length →
    (l.foldl (fun mem a => mem.set (pos a) 0) mem)[i]? = some 0 := by
  induction l with
  | nil =>
      obtain ⟨a, ha, -⟩ := h
      cases ha
  | cons b l ih =>
      intro mem hlt
      rw [List.foldl_cons]
      by_cases hl : ∃ a ∈ l, pos a = i
      · exact ih hl _ (by rwa [List.length_set])
      · push Not at hl
        rw [foldl_set_of_not_mem hl]
        obtain ⟨a, ha, hpos⟩ := h
        rcases List.mem_cons.mp ha with rfl | ha
        · rw [hpos, List.getElem?_set_self hlt]
        · exact absurd hpos (hl a ha)

end Strings

theorem cString_of_getElem? {mem w : List UInt8} (hw : 0 ∉ w)
    (hmem : ∀ k < w.length, mem[k]? = w[k]?) (hend : mem[w.length]? = some 0) :
    Bytes.cString mem = w := by
  have htake : mem.take w.length = w := by
    apply List.ext_getElem?
    intro k
    by_cases hk : k < w.length
    · rw [List.getElem?_take_of_lt hk, hmem k hk]
    · rw [List.getElem?_eq_none (by rw [List.length_take]; omega),
        List.getElem?_eq_none (by omega)]
  obtain ⟨hlt, hzero⟩ := List.getElem?_eq_some_iff.mp hend
  have hsplit : mem = w ++ 0 :: mem.drop (w.length + 1) := by
    conv_lhs => rw [← List.take_append_drop w.length mem, List.drop_eq_getElem_cons hlt, hzero, htake]
  rw [hsplit, Bytes.cString_append hw]

/-- The memory of a line. -/
theorem getElem?_line (line : Text) {pre : Text} {rest : Text} (h : line = pre ++ rest) {k : Nat}
    (hk : k < rest.length) :
    (line.map Subtype.val ++ [0])[pre.length + k]? = (rest[k]?).map Subtype.val := by
  rw [List.getElem?_append_left (by rw [List.length_map, h, List.length_append]; omega),
    List.getElem?_map, h, List.getElem?_append_right (by omega), Nat.add_sub_cancel_left]

/-- After `nulterminate` the string at a word of the line is the word. -/
theorem cstring_nulterminate {line : Text} {cmd : Cmd Span} (hp : cmd.Placed line) {a : Span}
    (ha : a ∈ cmd.strings) :
    cstring (nulterminate line.length cmd (line.map Subtype.val ++ [0]))
      (line.length - a.start.length) = a.text.map Subtype.val := by
  obtain ⟨⟨pre, hline, -⟩, hsplit, hword, hstop⟩ := hp a ha
  have hlen : a.start.length = a.text.length + a.stop.length := by
    conv_lhs => rw [hsplit, List.length_append]
  have hlen' : line.length = pre.length + a.start.length := by
    rw [← hline, List.length_append]
  have hpos : line.length - a.start.length = pre.length := by omega
  have hmem : (line.map Subtype.val ++ [0]).length = line.length + 1 := by simp
  unfold cstring
  rw [hpos, nulterminate_eq]
  refine cString_of_getElem? ?_ (fun k hk => ?_) ?_
  · intro hc
    obtain ⟨d, -, hd⟩ := List.mem_map.mp hc
    exact d.property hd
  · rw [List.length_map] at hk
    rw [List.getElem?_drop, foldl_set_of_not_mem, getElem?_line line hline.symm (by omega),
      List.getElem?_map, hsplit, List.getElem?_append_left hk]
    -- the bytes that become NUL are not in words
    intro b hb he
    obtain ⟨hin, hsplit', -, hstop'⟩ := hp b hb
    have hsuf : b.stop <:+ line := List.IsSuffix.trans ⟨_, hsplit'.symm⟩ hin.suffix
    have hhead : b.stop.head? = (line)[pre.length + k]? := by
      rw [← he, List.head?_eq_getElem?]
      conv_lhs => rw [List.suffix_iff_eq_drop.mp hsuf, List.getElem?_drop, Nat.add_zero]
    have hk' : (line)[pre.length + k]? = some a.text[k] := by
      rw [← hline, List.getElem?_append_right (by omega), Nat.add_sub_cancel_left, hsplit,
        List.getElem?_append_left hk, List.getElem?_eq_getElem hk]
    have hnot := hstop' _ (hhead.trans hk')
    rw [hword _ (List.getElem_mem hk)] at hnot
    cases hnot
  · rw [List.length_map, List.getElem?_drop]
    exact foldl_set_of_mem ⟨a, ha, by omega⟩ _ (by omega)

theorem Cmd.map_congr {σ τ : Type} {f g : σ → τ} {cmd : Cmd σ} (h : ∀ a ∈ cmd.strings, f a = g a) :
    cmd.map f = cmd.map g := by
  induction cmd with
  | exec argv => exact congrArg _ (List.map_congr_left h)
  | redir cmd file mode fd ih =>
      rw [map, map, ih fun a ha => h a (List.mem_append_left _ ha),
        h file (List.mem_append_right _ (List.mem_singleton_self _))]
  | pipe left right ihl ihr | list left right ihl ihr =>
      rw [map, map, ihl fun a ha => h a (List.mem_append_left _ ha),
        ihr fun a ha => h a (List.mem_append_right _ ha)]
  | back cmd ih => rw [map, map, ih h]

theorem Cmd.map_map {σ τ υ : Type} (g : τ → υ) (f : σ → τ) (cmd : Cmd σ) :
    (cmd.map f).map g = cmd.map (fun a => g (f a)) := by
  induction cmd with
  | exec argv => simp [map]
  | redir cmd file mode fd ih => simp [map, ih]
  | pipe left right ihl ihr | list left right ihl ihr => simp [map, ihl, ihr]
  | back cmd ih => simp [map, ih]

/-! ## `parsecmd` -/

theorem parseAll_sound (line : Text) :
    wp (parseAll (4 * line.length + 4))
      (fun cmd _ => Derives .line (lex line) (cmd.map Span.text) ∧ cmd.Placed line) (· ≠ .fuel)
      line := by
  unfold parseAll
  rw [wp_bind]
  refine ((sound line _).ofLine (.refl line)).imp (fun cmd s₁ h₁ => ?_) fun e he hf => ?_
  · obtain ⟨⟨ts, hd, hl⟩, hp, hs⟩ := h₁
    rw [wp_bind]
    refine wp_peek rfl fun s₂ hl₂ hs₂ => ?_
    rw [wp_bind, wp_get]
    split
    · exact nofun
    · rename_i hnil
      rw [not_not] at hnil
      rw [hnil, lex_nil] at hl₂
      rw [← hl₂, List.append_nil] at hl
      exact ⟨hl ▸ hd, hp⟩
  · have := he hf
    omega

/-- What `parsecmd` returns. -/
theorem parsecmd_sound {line : Text} {cmd : Cmd Span} {mem : List UInt8}
    (h : parsecmd line = .ok (cmd, mem)) :
    Derives .line (lex line) (cmd.map Span.text) ∧ cmd.Placed line ∧
      mem = nulterminate line.length cmd (line.map Subtype.val ++ [0]) := by
  unfold parsecmd at h
  cases hp : parseAll (4 * line.length + 4) line with
  | error e =>
      rw [hp] at h
      cases h
  | ok r =>
      obtain ⟨cmd', s'⟩ := r
      rw [hp] at h
      cases h
      obtain ⟨hd, hplaced⟩ := (wp_ok hp).mp (parseAll_sound line)
      exact ⟨hd, hplaced, rfl⟩

theorem skip_eq_nil {s : Text} (h : lex s = []) : skip s = [] := by
  rcases scan_cases s with ⟨-, hs⟩ | ⟨t, hr⟩
  · exact hs
  · rw [hr.lex] at h
    cases h

theorem parseAll_complete {line : Text} {T : Cmd Text} (h : Derives .line (lex line) T) :
    wp (parseAll (4 * line.length + 4)) (fun cmd _ => cmd.map Span.text = T) (· = .fuel) line := by
  unfold parseAll
  rw [wp_bind]
  have hline := complete h _ (4 * line.length + 4) _ (List.append_nil _).symm (.inl rfl)
  change wp (parseline _) _ _ _ at hline
  refine hline.mono fun cmd s₁ h₁ => ?_
  rw [wp_bind]
  show wp (do let s ← get; if s ≠ [] then throw (.panic "syntax") else return cmd :
    Parser (Cmd Span)) _ _ (skip s₁)
  rw [wp_bind, wp_get, skip_eq_nil h₁.1]
  exact h₁.2

/-- `parsecmd` returns for every line, with a command if and only if the tokens of the line
have a derivation, and then with the command that the derivation stands for. -/
theorem parser_accepts (line : Text) :
    parsecmd line ≠ .error .fuel ∧
    ((∃ r, parsecmd line = .ok r) ↔ ∃ T, Derives .line (lex line) T) ∧
    ∀ T, Derives .line (lex line) T → ∃ cmd mem, parsecmd line = .ok (cmd, mem) ∧
      cmd.map (fun a => cstring mem (line.length - a.start.length)) =
        T.map (List.map Subtype.val) := by
  have hsound := parseAll_sound line
  cases hp : parseAll (4 * line.length + 4) line with
  | error e =>
      have hne : e ≠ .fuel := (wp_error hp).mp hsound
      have hnone : ∀ T, ¬ Derives .line (lex line) T := fun T hT =>
        hne ((wp_error hp).mp (parseAll_complete hT))
      refine ⟨?_, ⟨?_, fun ⟨T, hT⟩ => absurd hT (hnone T)⟩, fun T hT => absurd hT (hnone T)⟩
      · intro he
        rw [parsecmd, hp] at he
        exact hne (Except.error.inj he)
      · rintro ⟨r, hr⟩
        rw [parsecmd, hp] at hr
        cases hr
  | ok r =>
      obtain ⟨cmd, s'⟩ := r
      have hcmd : parsecmd line =
          .ok (cmd, nulterminate line.length cmd (line.map Subtype.val ++ [0])) := by
        rw [parsecmd, hp]
      obtain ⟨hd, hplaced⟩ := (wp_ok hp).mp hsound
      refine ⟨by rw [hcmd]; nofun, ⟨fun _ => ⟨_, hd⟩, fun _ => ⟨_, hcmd⟩⟩, fun T hT => ?_⟩
      refine ⟨_, _, hcmd, ?_⟩
      have hT' : cmd.map Span.text = T := (wp_ok hp).mp (parseAll_complete hT)
      rw [← hT', Cmd.map_map]
      exact Cmd.map_congr fun a ha => cstring_nulterminate hplaced ha

end Xv6.Shell
