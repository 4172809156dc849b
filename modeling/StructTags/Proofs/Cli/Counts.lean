import StructTags.Cli.Arguments

/-!
# What the flags of a command line add up to

A command line that asks for a pass consists of requests for more or for less output, each by its
name or in a cluster of letters, and perhaps the end of the flags. What it asks for is the number of
these requests, however they are ordered and put together.

* `Volume`, `Token`: a request, and an argument that makes requests;
* `marks_eq_iff`: the arguments whose marks are nothing but requests;
* `Tally.Counts`: what is known of a tally after some requests, with a lemma for one request more;
* `settle_requests`: what requests add up to;
* **`parse_accepts`**: the command lines that are accepted, and what they ask for.
-/

namespace StructTags.Cli

/-! ## 1. Requests -/

/-- A request about the amount of output. -/
inductive Volume where
  | more
  | less
  deriving DecidableEq, Repr

namespace Volume

/-- The argument that makes the request by its name. -/
def name : Volume → String
  | more => "--verbose"
  | less => "--quiet"

/-- The letter that makes the request. -/
def letter : Volume → Char
  | more => 'v'
  | less => 'q'

/-- The flag that makes the request. -/
def flag : Volume → Flag
  | more => .verbose
  | less => .quiet

/-- The mark of the request. -/
def mark (v : Volume) : Mark := .flag v.flag

/-- What requests ask for together. -/
def options (vs : List Volume) : Options :=
  { verbose := min 255 (vs.count more), quiet := decide (less ∈ vs) }

/-- Less output is asked for at most once, and then more output is not asked for. -/
def Agree (vs : List Volume) : Prop := vs.count less ≤ 1 ∧ (less ∈ vs → more ∉ vs)

theorem toList_name (v : Volume) : v.name.toList = '-' :: '-' :: v.flag.long := by
  cases v <;> decide

theorem letter_eq_short (v : Volume) : v.letter = v.flag.short := by cases v <;> rfl

end Volume

/-- An argument that makes requests: one by its name, or some by their letters. -/
inductive Token where
  | long (v : Volume)
  | cluster (first : Volume) (rest : List Volume)
  deriving DecidableEq, Repr

namespace Token

/-- The argument as it is given. -/
def text : Token → String
  | long v => v.name
  | cluster first rest => String.ofList ('-' :: (first :: rest).map Volume.letter)

/-- The requests that the argument makes. -/
def requests : Token → List Volume
  | long v => [v]
  | cluster first rest => first :: rest

end Token

/-! ## 2. Arguments that make requests -/

/-- A flag is found by a name or letter that is its own and no other flag's. -/
theorem Flag.find?_eq_some_iff {β : Type} [BEq β] [LawfulBEq β] {key : Flag → β}
    (h : ∀ f, all.find? (key · == key f) = some f) {k : β} {f : Flag} :
    all.find? (key · == k) = some f ↔ k = key f := by
  constructor
  · intro hfound
    have hkey := List.find?_some hfound
    exact (beq_iff_eq.mp hkey).symm
  · rintro rfl
    exact h f

theorem Flag.ofLong?_eq_some_iff {name : List Char} {f : Flag} :
    ofLong? name = some f ↔ name = f.long :=
  find?_eq_some_iff fun f => by cases f <;> decide

theorem Flag.ofShort?_eq_some_iff {letter : Char} {f : Flag} :
    ofShort? letter = some f ↔ letter = f.short :=
  find?_eq_some_iff fun f => by cases f <;> decide

theorem longMark_eq_flag_iff {body : List Char} {f : Flag} :
    longMark body = .flag f ↔ body = f.long := by
  constructor
  · intro h
    rw [longMark] at h
    split at h
    · cases h
    · next g hg =>
      split at h
      · next hrest =>
        cases h
        have hwhole := List.prefix_iff_eq_append.mp (List.takeWhile_prefix (· ≠ '=') (l := body))
        rw [hrest, List.append_nil] at hwhole
        rw [← Flag.ofLong?_eq_some_iff.mp hg, hwhole]
      · cases h
  · rintro rfl
    cases f <;> decide

theorem letterMark_eq_flag_iff {c : Char} {f : Flag} : letterMark c = .flag f ↔ c = f.short := by
  rw [← Flag.ofShort?_eq_some_iff, letterMark]
  cases Flag.ofShort? c with
  | none => exact iff_of_false nofun nofun
  | some g => rw [Mark.flag.injEq, Option.some.injEq]

/-- The marks of a cluster are requests if and only if its letters are those of the requests. -/
theorem map_letterMark_eq_iff {letters : List Char} {vs : List Volume} :
    letters.map letterMark = vs.map Volume.mark ↔ letters = vs.map Volume.letter := by
  induction letters generalizing vs with
  | nil => cases vs <;> simp
  | cons c cs ih =>
    cases vs with
    | nil => simp
    | cons v vs =>
      rw [List.map_cons, List.map_cons, List.map_cons, List.cons.injEq, List.cons.injEq, ih,
        Volume.mark, letterMark_eq_flag_iff, Volume.letter_eq_short]

/-- The marks of an argument are requests if and only if it is an argument that makes these. -/
theorem argumentMarks_eq_iff {argument : String} {vs : List Volume} :
    argumentMarks argument = vs.map Volume.mark ↔
      ∃ t : Token, t.text = argument ∧ t.requests = vs := by
  constructor
  · intro h
    rw [argumentMarks] at h
    split at h
    · next body htext =>
      obtain ⟨v, rfl, hv⟩ := List.map_eq_singleton_iff.mp h.symm
      have hbody : body = v.flag.long := longMark_eq_flag_iff.mp hv.symm
      refine ⟨.long v, ?_, rfl⟩
      rw [← String.toList_inj, htext, hbody]
      exact v.toList_name
    · next letter letters _ htext =>
      obtain ⟨first, rest, rfl⟩ : ∃ first rest, vs = first :: rest := by
        cases vs with
        | nil => cases h
        | cons first rest => exact ⟨first, rest, rfl⟩
      refine ⟨.cluster first rest, ?_, rfl⟩
      rw [← String.toList_inj, htext, map_letterMark_eq_iff.mp h]
      exact String.toList_ofList
    · obtain ⟨v, -, hv⟩ := List.map_eq_singleton_iff.mp h.symm
      cases hv
  · rintro ⟨t, rfl, rfl⟩
    cases t with
    | long v =>
      rw [argumentMarks, Token.text, v.toList_name]
      exact congrArg (fun mark => [mark]) (longMark_eq_flag_iff.mpr rfl)
    | cluster first rest =>
      calc argumentMarks (Token.cluster first rest).text
          = ((first :: rest).map Volume.letter).map letterMark := by
            rw [argumentMarks, Token.text, String.toList_ofList]
            cases first <;> rfl
        _ = (first :: rest).map Volume.mark := map_letterMark_eq_iff.mpr rfl

/-- An argument that makes requests is not the end of the flags. -/
theorem Token.text_ne_endOfFlags (t : Token) : t.text ≠ endOfFlags := by
  cases t with
  | long v => cases v <;> decide
  | cluster first rest =>
    intro h
    have htext : '-' :: first.letter :: rest.map Volume.letter = ['-', '-'] := by
      have htoList := congrArg String.toList h
      rwa [Token.text, String.toList_ofList] at htoList
    cases first <;> cases htext

/-- The marks of a command line are requests if and only if it consists of arguments that make
    these, and perhaps the end of the flags. -/
theorem marks_eq_iff {arguments : List String} {vs : List Volume} :
    marks arguments = vs.map Volume.mark ↔
      ∃ (tokens : List Token) (ending : List String), (ending = [] ∨ ending = [endOfFlags]) ∧
        arguments = tokens.map Token.text ++ ending ∧ tokens.flatMap Token.requests = vs := by
  constructor
  · intro h
    induction arguments generalizing vs with
    | nil => exact ⟨[], [], .inl rfl, rfl, (List.map_eq_nil_iff.mp h.symm).symm⟩
    | cons argument rest ih =>
      rw [marks] at h
      split at h
      · next hend =>
        -- behind the end of the flags every argument is a fault
        cases rest with
        | nil =>
          exact ⟨[], [argument], .inr (by rw [hend]), rfl, (List.map_eq_nil_iff.mp h.symm).symm⟩
        | cons argument' rest =>
          cases vs with
          | nil => cases h
          | cons v vs => cases (List.cons.inj h).1
      · obtain ⟨us, ws, rfl, hus, hws⟩ := List.map_eq_append_iff.mp h.symm
        obtain ⟨t, rfl, rfl⟩ := argumentMarks_eq_iff.mp hus.symm
        obtain ⟨tokens, ending, hending, rfl, rfl⟩ := ih hws.symm
        exact ⟨t :: tokens, ending, hending, rfl, rfl⟩
  · rintro ⟨tokens, ending, hending, rfl, rfl⟩
    induction tokens with
    | nil => rcases hending with rfl | rfl <;> rfl
    | cons t tokens ih =>
      rw [List.map_cons, List.cons_append, marks, if_neg t.text_ne_endOfFlags, ih,
        argumentMarks_eq_iff.mpr ⟨t, rfl, rfl⟩, List.flatMap_cons, List.map_append]

/-! ## 3. Counting requests -/

namespace Volume

variable {vs ws : List Volume}

theorem options_more (us : List Volume) :
    options (us ++ [more]) =
      { options us with verbose := min verboseLimit ((options us).verbose + 1) } := by
  have hcount : (us ++ [more]).count more = us.count more + 1 := by
    rw [List.count_append, List.count_singleton_self]
  have hmem : less ∈ us ++ [more] ↔ less ∈ us := by simp
  simp only [options, verboseLimit, hcount, hmem, Options.mk.injEq, and_true]
  omega

theorem options_less (us : List Volume) :
    options (us ++ [less]) = { options us with quiet := true } := by
  have hcount : (us ++ [less]).count more = us.count more := by
    rw [List.count_append]
    rfl
  simp only [options, hcount, List.mem_append, List.mem_singleton, or_true, decide_true]

theorem verbose_options_pos : 0 < (options vs).verbose ↔ more ∈ vs := by
  show 0 < min 255 (vs.count more) ↔ more ∈ vs
  rw [← List.count_pos_iff]
  omega

theorem eq_options_iff {o : Options} :
    o = options vs ↔ o.verbose = min 255 (vs.count more) ∧ (o.quiet = true ↔ less ∈ vs) := by
  obtain ⟨verbose, quiet⟩ := o
  rw [options, Options.mk.injEq, Bool.eq_iff_iff, decide_eq_true_eq]

/-- A second request for less output is one too many. -/
theorem not_agree_of_mem (h : less ∈ vs) : ¬Agree (vs ++ less :: ws) := by
  rintro ⟨honce, -⟩
  have hfirst := List.count_pos_iff.mpr h
  rw [List.count_append, List.count_cons_self] at honce
  omega

theorem agree_perm (h : vs.Perm ws) : Agree vs ↔ Agree ws := by
  rw [Agree, Agree, h.count_eq, h.mem_iff, h.mem_iff]

theorem options_perm (h : vs.Perm ws) : options vs = options ws := by
  simp only [options, h.count_eq, h.mem_iff]

end Volume

namespace Tally

/-- The tally of some requests, at most one of them for less output. -/
structure Counts (t : Tally) (us : List Volume) : Prop where
  options : t.options = Volume.options us
  once : us.count .less ≤ 1

variable {t : Tally} {us : List Volume}

theorem counts_nil : Counts {} [] := ⟨rfl, Nat.zero_le 1⟩

theorem Counts.quiet_iff (h : t.Counts us) : t.options.quiet = true ↔ .less ∈ us := by
  rw [h.options, Volume.options, decide_eq_true_eq]

/-- One request for more output. -/
theorem Counts.more (h : t.Counts us) :
    Counts
      { options := { t.options with verbose := min verboseLimit (t.options.verbose + 1) }
        last := .verbose }
      (us ++ [.more]) where
  options := by rw [Volume.options_more, h.options]
  once := by
    rw [List.count_append]
    exact h.once

/-- One request for less output, the first one. -/
theorem Counts.less (h : t.Counts us) (hfirst : .less ∉ us) :
    Counts { options := { t.options with quiet := true }, last := .quiet } (us ++ [.less]) where
  options := by rw [Volume.options_less, h.options]
  once := by
    rw [List.count_append, List.count_eq_zero.mpr hfirst]
    exact Nat.le_refl 1

/-- In the end the requests have to agree. -/
theorem Counts.close_eq_iff (h : t.Counts us) {o : Options} :
    t.close = .ok (.pass o) ↔ Volume.Agree us ∧ o = Volume.options us := by
  have hboth : (t.options.quiet && decide (0 < t.options.verbose)) = true ↔
      .less ∈ us ∧ .more ∈ us := by
    rw [Bool.and_eq_true, decide_eq_true_eq, h.quiet_iff, h.options, Volume.verbose_options_pos]
  rw [close]
  split
  · next hconflict =>
    refine iff_of_false nofun fun ⟨hagree, _⟩ => ?_
    obtain ⟨hless, hmore⟩ := hboth.mp hconflict
    exact hagree.2 hless hmore
  · next hnone =>
    have hagree : Volume.Agree us := ⟨h.once, fun hless hmore => hnone (hboth.mpr ⟨hless, hmore⟩)⟩
    rw [Except.ok.injEq, Request.pass.injEq, and_iff_right hagree, h.options, eq_comm]

end Tally

/-- What requests add up to, on top of the requests before. -/
theorem settle_requests {t : Tally} {us vs : List Volume} (h : t.Counts us) {o : Options} :
    settle t (vs.map Volume.mark) = .ok (.pass o) ↔
      Volume.Agree (us ++ vs) ∧ o = Volume.options (us ++ vs) := by
  induction vs generalizing t us with
  | nil =>
    rw [List.append_nil]
    exact h.close_eq_iff
  | cons v vs ih =>
    have hassoc : us ++ v :: vs = us ++ [v] ++ vs := List.append_cons us v vs
    cases v with
    | more =>
      rw [hassoc, ← ih h.more]
      rfl
    | less =>
      rw [List.map_cons, Volume.mark, Volume.flag, settle]
      split
      · next hquiet =>
        exact iff_of_false nofun fun ⟨hagree, _⟩ =>
          Volume.not_agree_of_mem (h.quiet_iff.mp hquiet) hagree
      · next hquiet =>
        rw [hassoc, ← ih (h.less (mt h.quiet_iff.mpr hquiet))]

/-- Only requests make a pass: any other mark ends the reading with something else. -/
theorem requests_of_settle {t : Tally} {ms : List Mark} {o : Options}
    (h : settle t ms = .ok (.pass o)) : ∃ vs : List Volume, ms = vs.map Volume.mark := by
  fun_induction settle t ms with
  | case1 => exact ⟨[], rfl⟩
  | case2 => cases h
  | case3 => cases h
  | case4 => cases h
  | case5 t rest ih =>
    obtain ⟨vs, rfl⟩ := ih h
    exact ⟨.more :: vs, rfl⟩
  | case6 => cases h
  | case7 t rest hfirst ih =>
    obtain ⟨vs, rfl⟩ := ih h
    exact ⟨.less :: vs, rfl⟩

/-! ## 4. Command lines -/

variable {arguments : List String} {o : Options}

/-- A command line that asks for a pass consists of arguments that make requests. -/
theorem exists_tokens_of_parse (h : parse arguments = .ok (.pass o)) :
    ∃ (tokens : List Token) (ending : List String), (ending = [] ∨ ending = [endOfFlags]) ∧
      arguments = tokens.map Token.text ++ ending := by
  obtain ⟨vs, hvs⟩ := requests_of_settle h
  obtain ⟨tokens, ending, hending, harguments, -⟩ := marks_eq_iff.mp hvs
  exact ⟨tokens, ending, hending, harguments⟩

/-- What arguments that make requests ask for. -/
theorem parse_texts_eq_pass_iff (tokens : List Token) {ending : List String}
    (hending : ending = [] ∨ ending = [endOfFlags]) :
    parse (tokens.map Token.text ++ ending) = .ok (.pass o) ↔
      Volume.Agree (tokens.flatMap Token.requests) ∧
        o = Volume.options (tokens.flatMap Token.requests) := by
  rw [parse, marks_eq_iff.mpr ⟨tokens, ending, hending, rfl, rfl⟩]
  exact settle_requests Tally.counts_nil

/-- **Which command lines are accepted, and what they ask for.** They consist of arguments that
    make requests, and perhaps a last `--`; less output is asked for at most once, and then more
    output is not asked for. More output counts up to 255. The same requests in any other order, and
    any other way to write them, ask for the same. -/
theorem parse_accepts (arguments : List String) (o : Options) :
    (parse arguments = .ok (.pass o) ↔
      ∃ (tokens : List Token) (ending : List String), (ending = [] ∨ ending = ["--"]) ∧
        arguments = tokens.map Token.text ++ ending ∧
        (tokens.flatMap Token.requests).count .less ≤ 1 ∧
        (.less ∈ tokens.flatMap Token.requests → .more ∉ tokens.flatMap Token.requests) ∧
        o.verbose = min 255 ((tokens.flatMap Token.requests).count .more) ∧
        (o.quiet = true ↔ .less ∈ tokens.flatMap Token.requests)) ∧
    (parse arguments = .ok (.pass o) → o.verbose ≤ 255 ∧ ¬(o.quiet = true ∧ 0 < o.verbose)) ∧
    ∀ (tokens tokens' : List Token) (ending ending' : List String),
      (ending = [] ∨ ending = ["--"]) → (ending' = [] ∨ ending' = ["--"]) →
      (tokens.flatMap Token.requests).Perm (tokens'.flatMap Token.requests) →
      (parse (tokens.map Token.text ++ ending) = .ok (.pass o) ↔
        parse (tokens'.map Token.text ++ ending') = .ok (.pass o)) := by
  refine ⟨⟨fun h => ?_, ?_⟩, fun h => ?_, ?_⟩
  · obtain ⟨tokens, ending, hending, rfl⟩ := exists_tokens_of_parse h
    obtain ⟨⟨honce, hboth⟩, ho⟩ := (parse_texts_eq_pass_iff tokens hending).mp h
    exact ⟨tokens, ending, hending, rfl, honce, hboth, Volume.eq_options_iff.mp ho⟩
  · rintro ⟨tokens, ending, hending, rfl, honce, hboth, ho⟩
    exact (parse_texts_eq_pass_iff tokens hending).mpr
      ⟨⟨honce, hboth⟩, Volume.eq_options_iff.mpr ho⟩
  · obtain ⟨tokens, ending, hending, rfl⟩ := exists_tokens_of_parse h
    obtain ⟨hagree, rfl⟩ := (parse_texts_eq_pass_iff tokens hending).mp h
    refine ⟨Nat.min_le_left _ _, fun ⟨hquiet, hverbose⟩ => ?_⟩
    exact hagree.2 (of_decide_eq_true hquiet) (Volume.verbose_options_pos.mp hverbose)
  · intro tokens tokens' ending ending' hending hending' hperm
    rw [parse_texts_eq_pass_iff tokens hending, parse_texts_eq_pass_iff tokens' hending',
      Volume.agree_perm hperm, Volume.options_perm hperm]

example : parse ["-vv", "--verbose", "-v", "--"] = .ok (.pass { verbose := 4 }) := by
  cbv

end StructTags.Cli
