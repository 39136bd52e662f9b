import Dafeng.Library.Bytes

/-!
# Dafeng.Library.Options

Command lines read from left to right: a flag stands alone, takes the argument
behind it for its value, or ends the reading. A value may look like a flag, and
a flag without its value is one that the program does not know. What is read is
a list of written options, and what it says is their effects in order.
-/

namespace Dafeng

/-- What a flag does with the settings so far. -/
inductive Flag (α ε : Type)
  | plain (set : α → α)
  | valued (set : Bytes → α → Except ε α)
  | stop (e : ε)

/-- The flags of a program, and what it says of any other argument. -/
structure Options (α ε : Type) where
  flag : Bytes → Option (Flag α ε)
  unknown : Bytes → ε

/-- An option as it stands on a command line. -/
inductive Written
  | plain (name : Bytes)
  | valued (name value : Bytes)
  deriving DecidableEq, Repr

def Written.args : Written → List Bytes
  | .plain name => [name]
  | .valued name value => [name, value]

/-- A command line of these options. -/
def commandArgs (ws : List Written) : List Bytes := ws.flatMap Written.args

@[simp] theorem commandArgs_nil : commandArgs [] = [] := rfl

@[simp] theorem commandArgs_cons (w : Written) (ws : List Written) :
    commandArgs (w :: ws) = w.args ++ commandArgs ws := rfl

@[simp] theorem commandArgs_append (ws ws' : List Written) :
    commandArgs (ws ++ ws') = commandArgs ws ++ commandArgs ws' :=
  List.flatMap_append

namespace Options

variable {α ε : Type} (o : Options α ε)

/-- The arguments in order. -/
def parse : List Bytes → α → Except ε α
  | [], a => .ok a
  | arg :: rest, a =>
    match o.flag arg with
    | some (.plain set) => parse rest (set a)
    | some (.valued set) =>
      match rest with
      | value :: rest =>
        match set value a with
        | .ok b => parse rest b
        | .error e => .error e
      | [] => .error (o.unknown arg)
    | some (.stop e) => .error e
    | none => .error (o.unknown arg)

/-- What one option does. -/
def apply (a : α) : Written → Except ε α
  | .plain name =>
    match o.flag name with
    | some (.plain set) => .ok (set a)
    | _ => .error (o.unknown name)
  | .valued name value =>
    match o.flag name with
    | some (.valued set) => set value a
    | _ => .error (o.unknown name)

/-- What options do, one after the other. -/
def applyAll : List Written → α → Except ε α
  | [], a => .ok a
  | w :: ws, a =>
    match o.apply a w with
    | .ok b => applyAll ws b
    | .error e => .error e

/-- An option that the program has. -/
def Has : Written → Prop
  | .plain name => ∃ set, o.flag name = some (.plain set)
  | .valued name _ => ∃ set, o.flag name = some (.valued set)

/-- Arguments that end the reading at their head. -/
inductive Fails (a : α) : List Bytes → ε → Prop
  | unknown {arg : Bytes} (rest : List Bytes) (h : o.flag arg = none) :
      Fails a (arg :: rest) (o.unknown arg)
  | missing {arg : Bytes} {set : Bytes → α → Except ε α} (h : o.flag arg = some (.valued set)) :
      Fails a [arg] (o.unknown arg)
  | stopped {arg : Bytes} {e : ε} (rest : List Bytes) (h : o.flag arg = some (.stop e)) :
      Fails a (arg :: rest) e
  | refused {arg value : Bytes} {set : Bytes → α → Except ε α} {e : ε} (rest : List Bytes)
      (h : o.flag arg = some (.valued set)) (hset : set value a = .error e) :
      Fails a (arg :: value :: rest) e

variable {o}

theorem parse_plain {name : Bytes} {set : α → α} (h : o.flag name = some (.plain set))
    (rest : List Bytes) (a : α) : o.parse (name :: rest) a = o.parse rest (set a) := by
  simp only [parse, h]

theorem parse_valued {name value : Bytes} {set : Bytes → α → Except ε α} {a b : α}
    (h : o.flag name = some (.valued set)) (hset : set value a = .ok b) (rest : List Bytes) :
    o.parse (name :: value :: rest) a = o.parse rest b := by
  simp only [parse, h, hset]

/-- An option of the program in front of the others. -/
theorem parse_args_append {w : Written} (hw : o.Has w) {a b : α} (hb : o.apply a w = .ok b)
    (rest : List Bytes) : o.parse (w.args ++ rest) a = o.parse rest b := by
  cases w with
  | plain name =>
      obtain ⟨set, hflag⟩ := hw
      simp only [apply, hflag] at hb
      obtain rfl := Except.ok.inj hb
      exact parse_plain hflag rest a
  | valued name value =>
      obtain ⟨set, hflag⟩ := hw
      simp only [apply, hflag] at hb
      exact parse_valued hflag hb rest

theorem parse_commandArgs_append {ws : List Written} (hws : ∀ w ∈ ws, o.Has w) {a b : α}
    (hb : o.applyAll ws a = .ok b) (rest : List Bytes) :
    o.parse (commandArgs ws ++ rest) a = o.parse rest b := by
  induction ws generalizing a with
  | nil =>
      obtain rfl := Except.ok.inj hb
      rfl
  | cons w ws ih =>
      obtain ⟨hw, hrest⟩ := List.forall_mem_cons.mp hws
      rw [applyAll] at hb
      split at hb
      · rename_i c hc
        rw [commandArgs_cons, List.append_assoc, parse_args_append hw hc, ih hrest hb]
      · cases hb

theorem parse_fails {a : α} {args : List Bytes} {e : ε} (h : o.Fails a args e) :
    o.parse args a = .error e := by
  cases h with
  | unknown rest h => simp only [parse, h]
  | missing h => simp only [parse, h]
  | stopped rest h => simp only [parse, h]
  | refused rest h hset => simp only [parse, h, hset]

/-- Whatever stands on a command line: options of the program, up to its end or up to an argument
that ends the reading. -/
theorem parse_split (args : List Bytes) (a : α) :
    ∃ ws rest b, args = commandArgs ws ++ rest ∧ (∀ w ∈ ws, o.Has w) ∧
      o.applyAll ws a = .ok b ∧ (rest = [] ∨ ∃ e, o.Fails b rest e) := by
  induction hn : args.length using Nat.strongRecOn generalizing args a with
  | ind n ih =>
      cases args with
      | nil => exact ⟨[], [], a, rfl, nofun, rfl, .inl rfl⟩
      | cons arg rest =>
          cases hflag : o.flag arg with
          | none => exact ⟨[], arg :: rest, a, rfl, nofun, rfl, .inr ⟨_, .unknown rest hflag⟩⟩
          | some f =>
              cases f with
              | plain set =>
                  obtain ⟨ws, rest', b, hargs, hws, hb, hend⟩ :=
                    ih rest.length (by simp at hn; omega) rest (set a) rfl
                  refine ⟨.plain arg :: ws, rest', b, ?_, ?_, ?_, hend⟩
                  · rw [hargs]
                    rfl
                  · exact List.forall_mem_cons.mpr ⟨⟨set, hflag⟩, hws⟩
                  · simp only [applyAll, apply, hflag]
                    exact hb
              | stop e => exact ⟨[], arg :: rest, a, rfl, nofun, rfl, .inr ⟨e, .stopped rest hflag⟩⟩
              | valued set =>
                  cases rest with
                  | nil => exact ⟨[], [arg], a, rfl, nofun, rfl, .inr ⟨_, .missing hflag⟩⟩
                  | cons value rest =>
                      cases hset : set value a with
                      | error e =>
                          exact ⟨[], arg :: value :: rest, a, rfl, nofun, rfl,
                            .inr ⟨e, .refused rest hflag hset⟩⟩
                      | ok c =>
                          obtain ⟨ws, rest', b, hargs, hws, hb, hend⟩ :=
                            ih rest.length (by simp at hn; omega) rest c rfl
                          refine ⟨.valued arg value :: ws, rest', b, ?_, ?_, ?_, hend⟩
                          · rw [hargs]
                            rfl
                          · exact List.forall_mem_cons.mpr ⟨⟨set, hflag⟩, hws⟩
                          · simp only [applyAll, apply, hflag, hset]
                            exact hb

/-- **What is accepted**: options of the program and nothing else. -/
theorem parse_eq_ok_iff {args : List Bytes} {a b : α} : o.parse args a = .ok b ↔
    ∃ ws, args = commandArgs ws ∧ (∀ w ∈ ws, o.Has w) ∧ o.applyAll ws a = .ok b := by
  constructor
  · intro h
    obtain ⟨ws, rest, c, hargs, hws, hc, hend⟩ := parse_split (o := o) args a
    rw [hargs, parse_commandArgs_append hws hc] at h
    obtain rfl | ⟨e, he⟩ := hend
    · obtain rfl := Except.ok.inj h
      exact ⟨ws, by rw [hargs, List.append_nil], hws, hc⟩
    · rw [parse_fails he] at h
      cases h
  · rintro ⟨ws, rfl, hws, hb⟩
    have h := parse_commandArgs_append hws hb []
    rwa [List.append_nil] at h

/-- **What is refused**, and with which words: options of the program, and behind them the first
argument that ends the reading. -/
theorem parse_eq_error_iff {args : List Bytes} {a : α} {e : ε} : o.parse args a = .error e ↔
    ∃ ws rest b, args = commandArgs ws ++ rest ∧ (∀ w ∈ ws, o.Has w) ∧
      o.applyAll ws a = .ok b ∧ o.Fails b rest e := by
  constructor
  · intro h
    obtain ⟨ws, rest, c, hargs, hws, hc, hend⟩ := parse_split (o := o) args a
    rw [hargs, parse_commandArgs_append hws hc] at h
    obtain rfl | ⟨e', he⟩ := hend
    · cases h
    · rw [parse_fails he] at h
      obtain rfl := Except.error.inj h
      exact ⟨ws, rest, c, hargs, hws, hc, he⟩
  · rintro ⟨ws, rest, b, rfl, hws, hb, he⟩
    rw [parse_commandArgs_append hws hb, parse_fails he]

end Options

end Dafeng
