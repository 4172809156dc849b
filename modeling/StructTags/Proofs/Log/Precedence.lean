import StructTags.Log.Config
import StructTags.Proofs.Text.Case

/-!
# Who decides about a setting

The settings of the log come from the command line, from variables of the environment, and from
defaults. This file says which of them wins, and that no setting looks at what is not its own:

* `Level.lookup_lowered_eq_some_iff`, `Format.ofText_eq_iff`, `isTruthy_iff`: which words are
  recognised, whatever way to lower texts is taken;
* `Config.level_of_flags`, `Config.level_of_no_flags`: flags win over the environment, and of its
  two variables for the level the first one that is set wins;
* **`configuration_precedence`**: all of it, and what each setting depends on.
-/

namespace StructTags.Log

/-! ## 1. Words -/

/-- In a table without repeated keys a key is found with the value that stands beside it. -/
theorem lookup_eq_some_iff_mem {α β : Type} [BEq α] [LawfulBEq α] {table : List (α × β)}
    (h : (table.map Prod.fst).Nodup) {a : α} {b : β} :
    table.lookup a = some b ↔ (a, b) ∈ table := by
  induction table with
  | nil => simp
  | cons entry table ih =>
    obtain ⟨key, value⟩ := entry
    rw [List.map_cons, List.nodup_cons] at h
    rw [List.lookup_cons, List.mem_cons, Prod.mk.injEq]
    cases hkey : a == key with
    | true =>
      obtain rfl := eq_of_beq hkey
      have hnot : (a, b) ∉ table := fun hmem => h.1 (List.mem_map.mpr ⟨(a, b), hmem, rfl⟩)
      simp [hnot, eq_comm]
    | false => simp [ih h.2, beq_eq_false_iff_ne.mp hkey]

namespace Level

variable {casing : Text.LowerCasing} {word : String}

theorem small_of_mem_words : ∀ entry ∈ words, Text.Small entry.1.toList := by decide +kernel

/-- **The words for levels are recognised up to the case of ASCII letters**, whatever way to lower
    texts is taken. -/
theorem lookup_lowered_eq_some_iff {level : Level} :
    words.lookup (casing.lowered word) = some level ↔
      ∃ w, (w, level) ∈ words ∧ Text.SameUpToCase word w := by
  rw [lookup_eq_some_iff_mem (by decide +kernel)]
  constructor
  · intro hmem
    exact ⟨_, hmem, (Text.LowerCasing.lowered_eq_iff (small_of_mem_words _ hmem)).mp rfl⟩
  · rintro ⟨w, hmem, hsame⟩
    rw [(Text.LowerCasing.lowered_eq_iff (small_of_mem_words _ hmem)).mpr hsame]
    exact hmem

theorem ofText?_eq_some_iff {level : Level} :
    ofText? word = some level ↔ ∃ w, (w, level) ∈ words ∧ Text.SameUpToCase word w := by
  rw [ofText?, ← Text.lowered_basic, lookup_lowered_eq_some_iff]

/-- All ways to lower texts recognise the same words. -/
theorem lookup_lowered (casing : Text.LowerCasing) (word : String) :
    words.lookup (casing.lowered word) = ofText? word :=
  Option.ext fun _ => lookup_lowered_eq_some_iff.trans ofText?_eq_some_iff.symm

/-- A word with a character outside ASCII names no level. -/
theorem ofText?_of_not_ascii {c : Char} (hc : c ∈ word.toList) (h : 128 ≤ c.toNat) :
    ofText? word = none := by
  refine Option.eq_none_iff_forall_ne_some.mpr fun level hlevel => ?_
  obtain ⟨w, hmem, hsame⟩ := ofText?_eq_some_iff.mp hlevel
  exact absurd (hsame.ascii (small_of_mem_words _ hmem) c hc) (Nat.not_lt.mpr h)

end Level

namespace Format

variable {word : String}

/-- The two formats that have to be named. -/
theorem ofText_eq_iff :
    (ofText word = json ↔ Text.SameUpToCase word "json") ∧
      (ofText word = compact ↔ Text.SameUpToCase word "compact") := by
  have hjson : Text.lowered word = json.name ↔ Text.SameUpToCase word "json" :=
    Text.lowered_eq_iff_sameUpToCase (by decide +kernel)
  have hcompact : Text.lowered word = compact.name ↔ Text.SameUpToCase word "compact" :=
    Text.lowered_eq_iff_sameUpToCase (by decide +kernel)
  have hne : json.name ≠ compact.name := by decide +kernel
  rw [← hjson, ← hcompact, ofText]
  by_cases h : Text.lowered word = json.name
  · simp [h, hne]
  · by_cases h' : Text.lowered word = compact.name
    · simp [h', hne.symm]
    · simp [h, h']

/-- A word with a character outside ASCII means the default. -/
theorem ofText_of_not_ascii {c : Char} (hc : c ∈ word.toList) (h : 128 ≤ c.toNat) :
    ofText word = pretty := by
  have hnot {w : String} (hw : Text.Small w.toList) : ¬ Text.SameUpToCase word w := fun hsame =>
    absurd (hsame.ascii hw c hc) (Nat.not_lt.mpr h)
  cases hformat : ofText word with
  | pretty => rfl
  | compact => exact absurd (ofText_eq_iff.2.mp hformat) (hnot (by decide +kernel))
  | json => exact absurd (ofText_eq_iff.1.mp hformat) (hnot (by decide +kernel))

end Format

/-- A setting is switched on by the word true, up to case, or by 1. -/
theorem isTruthy_iff {value : String} :
    isTruthy value = true ↔ Text.SameUpToCase value "true" ∨ value = "1" := by
  rw [isTruthy, Bool.or_eq_true, decide_eq_true_eq, decide_eq_true_eq,
    Text.lowered_eq_iff_sameUpToCase (by decide +kernel)]

/-! ## 2. Settings -/

namespace Config

variable {env : Environment} {verbose : Nat} {quiet : Bool}

/-- Flags that ask for something win over the environment. -/
theorem level_of_flags (h : 0 < verbose ∨ quiet = true) :
    ((ofEnvironment env).withVerbosity verbose quiet).level = Level.ofVerbosity verbose quiet := by
  refine if_pos ?_
  rw [Bool.or_eq_true, decide_eq_true_eq]
  exact h

/-- Without flags the environment decides, and it is asked for one variable after the other. -/
theorem level_of_no_flags (hverbose : verbose = 0) (hquiet : quiet = false) :
    ((ofEnvironment env).withVerbosity verbose quiet).level =
      ((env "TAGSYNC_LOG_LEVEL" <|> env "RUST_LOG").bind Level.ofText?).getD .warn := by
  rw [hverbose, hquiet]
  rfl

/-- The level depends on the second variable only where the first one is not set. -/
theorem level_congr {other : Environment}
    (hfirst : env "TAGSYNC_LOG_LEVEL" = other "TAGSYNC_LOG_LEVEL")
    (hsecond : env "TAGSYNC_LOG_LEVEL" = none → env "RUST_LOG" = other "RUST_LOG") :
    (ofEnvironment env).level = (ofEnvironment other).level := by
  have hword : (env "TAGSYNC_LOG_LEVEL" <|> env "RUST_LOG") =
      (other "TAGSYNC_LOG_LEVEL" <|> other "RUST_LOG") := by
    rw [← hfirst]
    cases hset : env "TAGSYNC_LOG_LEVEL" with
    | some word => rfl
    | none => exact hsecond hset
  exact congrArg (fun word : Option String => (word.bind Level.ofText?).getD Level.warn) hword

end Config

/-- **Which setting is decided by what.** Flags win over the environment; of its two variables for
    the level the first one that is set wins, even if its word is not recognised; and a word that is
    not recognised means the default. No setting looks at a variable that is not its own, or at
    flags that are not about it. Words are recognised up to the case of ASCII letters and never with
    a character outside ASCII, whatever way to lower texts is taken. -/
theorem configuration_precedence (casing : Text.LowerCasing) (env env' : Environment)
    (verbose verbose' : Nat) (quiet quiet' : Bool) :
    ∃ config config', config = (Config.ofEnvironment env).withVerbosity verbose quiet ∧
      config' = (Config.ofEnvironment env').withVerbosity verbose' quiet' ∧
      -- the level
      (0 < verbose ∨ quiet = true → config.level = Level.ofVerbosity verbose quiet) ∧
      (verbose = 0 → quiet = false →
        (∀ word, env "TAGSYNC_LOG_LEVEL" = some word →
            config.level = (Level.ofText? word).getD .warn) ∧
          (env "TAGSYNC_LOG_LEVEL" = none →
            (∀ word, env "RUST_LOG" = some word →
                config.level = (Level.ofText? word).getD .warn) ∧
              (env "RUST_LOG" = none → config.level = .warn))) ∧
      -- what each setting depends on
      (verbose = verbose' → quiet = quiet' →
        env "TAGSYNC_LOG_LEVEL" = env' "TAGSYNC_LOG_LEVEL" →
        (env "TAGSYNC_LOG_LEVEL" = none → env "RUST_LOG" = env' "RUST_LOG") →
        config.level = config'.level) ∧
      (env "TAGSYNC_LOG_FORMAT" = env' "TAGSYNC_LOG_FORMAT" → config.format = config'.format) ∧
      (env "TAGSYNC_LOG_SOURCE" = env' "TAGSYNC_LOG_SOURCE" →
        config.sourceLocation = config'.sourceLocation) ∧
      (env "TAGSYNC_LOG_SPANS" = env' "TAGSYNC_LOG_SPANS" →
        config.scopeEvents = config'.scopeEvents) ∧
      (verbose = verbose' → config.targets = config'.targets) ∧
      -- the words
      ∀ word,
        (∀ level, Level.ofText? word = some level ↔
            ∃ w, (w, level) ∈ Level.words ∧ Text.SameUpToCase word w) ∧
          (Format.ofText word = .json ↔ Text.SameUpToCase word "json") ∧
          (Format.ofText word = .compact ↔ Text.SameUpToCase word "compact") ∧
          (isTruthy word = true ↔ Text.SameUpToCase word "true" ∨ word = "1") ∧
          (∀ c ∈ word.toList, 128 ≤ c.toNat →
            Level.ofText? word = none ∧ Format.ofText word = .pretty) ∧
          Level.words.lookup (casing.lowered word) = Level.ofText? word ∧
          (casing.lowered word = "json" ↔ Format.ofText word = .json) ∧
          (casing.lowered word = "compact" ↔ Format.ofText word = .compact) := by
  refine ⟨_, _, rfl, rfl, Config.level_of_flags, ?_, ?_, ?_, ?_, ?_, ?_, fun word => ?_⟩
  · intro hverbose hquiet
    rw [Config.level_of_no_flags hverbose hquiet]
    refine ⟨fun word hword => ?_, fun hnone => ⟨fun word hword => ?_, fun hnone' => ?_⟩⟩
    · rw [hword]
      rfl
    · rw [hnone, hword]
      rfl
    · rw [hnone, hnone']
      rfl
  · rintro rfl rfl hfirst hsecond
    have hlevel := Config.level_congr hfirst hsecond
    exact congrArg
      (fun level => if verbose > 0 || quiet then Level.ofVerbosity verbose quiet else level) hlevel
  · exact congrArg fun value : Option String => (value.map Format.ofText).getD Format.pretty
  · exact congrArg fun value : Option String => (value.map isTruthy).getD false
  · exact congrArg fun value : Option String => (value.map isTruthy).getD false
  · rintro rfl
    rfl
  · refine ⟨fun level => Level.ofText?_eq_some_iff, Format.ofText_eq_iff.1, Format.ofText_eq_iff.2,
      isTruthy_iff,
      fun c hc h => ⟨Level.ofText?_of_not_ascii hc h, Format.ofText_of_not_ascii hc h⟩,
      Level.lookup_lowered casing word, ?_, ?_⟩
    · rw [Format.ofText_eq_iff.1]
      exact Text.LowerCasing.lowered_eq_iff (by decide +kernel)
    · rw [Format.ofText_eq_iff.2]
      exact Text.LowerCasing.lowered_eq_iff (by decide +kernel)

/-- A first variable whose word is not recognised hides the second one. -/
theorem configuration_precedence_hidden :
    ((Config.ofEnvironment fun name => if name = "TAGSYNC_LOG_LEVEL" then some "İnfo"
      else some "trace").withVerbosity 0 false).level = .warn := by
  let env : Environment := fun name =>
    if name = "TAGSYNC_LOG_LEVEL" then some "İnfo" else some "trace"
  obtain ⟨_, _, rfl, -, -, hlevel, -⟩ :=
    configuration_precedence Text.LowerCasing.basic env env 0 0 false false
  have hword : Level.ofText? "İnfo" = none := by decide +kernel
  calc ((Config.ofEnvironment env).withVerbosity 0 false).level
      = (Level.ofText? "İnfo").getD .warn := (hlevel rfl rfl).1 "İnfo" rfl
    _ = .warn := by rw [hword, Option.getD_none]

end StructTags.Log
