import Mathlib.Tactic.ByContra
import Dafeng.Library.Utf16

/-!
# Dafeng.Endpoint.WindowsPaths

The daemon's address in `src/common/paths_win.cc`, a named pipe for each user, and
which two accounts it tells apart. What Windows computes is a parameter.
-/

namespace Dafeng.Endpoint

/-! ### The address -/

/-- `UNLEN`: the most units in a user name. -/
def unlen : Nat := 256

/-- The user a process runs for, with the `USERNAME` in its environment. -/
structure Account where
  name : List Char
  noNul : '\x00' ∉ name
  username : Option Bytes

/-- The functions of Windows that the address is computed with. -/
structure Win32 where
  /-- `GetUserNameW`, from the user and the size of the buffer: what the buffer holds
  afterwards, or nothing where the call fails. -/
  getUserNameW : Account → Nat → Option (List UInt16)
  /-- `WideCharToMultiByte` for `CP_UTF8` without flags: the bytes it writes. -/
  wideCharToMultiByte : List UInt16 → Bytes

/-- What is documented of them: the name is stored with a NUL behind it where both fit, and
UTF-16 is converted to UTF-8. -/
structure Win32.Documented (win : Win32) : Prop where
  stored : ∀ account size, (Utf16.encodeText account.name).length < size →
    ∃ rest, win.getUserNameW account size = some (Utf16.encodeText account.name ++ 0 :: rest)
  tooLong : ∀ account size, size ≤ (Utf16.encodeText account.name).length →
    win.getUserNameW account size = none
  utf8 : ∀ cs, win.wideCharToMultiByte (Utf16.encodeText cs) = Utf8.encodeText cs

variable (win : Win32)

/-- `WideToUtf8` on what a pointer points to. -/
def wideToUtf8 (w : List UInt16) : Bytes :=
  let units := w.takeWhile (· ≠ 0)
  if units = [] then [] else win.wideCharToMultiByte units

/-- The bytes that `SanitizeForPipeName` keeps: letters, digits, `-`, `_` and `.`. -/
def isPipeByte (u : UInt8) : Bool :=
  (0x61 ≤ u && u ≤ 0x7A) || (0x41 ≤ u && u ≤ 0x5A) || (0x30 ≤ u && u ≤ 0x39) ||
    u == 0x2D || u == 0x5F || u == 0x2E

/-- One turn of the loop of `SanitizeForPipeName`. -/
def sanitizeByte (u : UInt8) : UInt8 := if isPipeByte u then u else 0x5F

/-- `SanitizeForPipeName`. -/
def sanitizeForPipeName (s : Bytes) : Bytes :=
  let out := s.map sanitizeByte
  if out = [] then ascii "user" else out

/-- `CurrentUserName`. -/
def currentUserName (account : Account) : Bytes :=
  match win.getUserNameW account (unlen + 1) with
  | some buf => sanitizeForPipeName (wideToUtf8 win buf)
  | none =>
    match account.username with
    | some env => if env ≠ [] then sanitizeForPipeName env else ascii "user"
    | none => ascii "user"

def pipePrefix : Bytes := ascii "\\\\.\\pipe\\dafeng-daemon-"

/-- `GetDaemonAddress`, with `DAFENG_DAEMON_ADDR`. -/
def getDaemonAddress (overrideAddr : Option Bytes) (account : Account) : Bytes :=
  match overrideAddr with
  | some addr => if addr ≠ [] then addr else pipePrefix ++ currentUserName win account
  | none => pipePrefix ++ currentUserName win account

/-- What the pipe's last component is made of: the name in UTF-8, `USERNAME` for a
name that does not fit the buffer, and `user` in place of an empty text. -/
def Account.segment (account : Account) : Bytes :=
  let text :=
    if (Utf16.encodeText account.name).length ≤ unlen then Utf8.encodeText account.name
    else account.username.getD []
  if text = [] then ascii "user" else text

variable {win}

/-- A name without NUL comes back from the buffer. -/
theorem wideToUtf8_buffer (hwin : win.Documented) (account : Account) (rest : List UInt16) :
    wideToUtf8 win (Utf16.encodeText account.name ++ 0 :: rest) =
      Utf8.encodeText account.name := by
  have hunits : (Utf16.encodeText account.name ++ 0 :: rest).takeWhile (· ≠ 0) =
      Utf16.encodeText account.name := by
    rw [List.takeWhile_append_of_pos]
    · simp
    · intro u hu
      have hzero := Utf16.zero_notMem_encodeText account.noNul
      exact decide_eq_true fun h => hzero (h ▸ hu)
  rw [wideToUtf8, hunits]
  split
  next hnil =>
    have hname := Utf16.decodeText_encodeText account.name
    rw [hnil] at hname
    rw [← hname]
    rfl
  next =>
    rw [hwin.utf8]

theorem sanitizeForPipeName_eq (s : Bytes) :
    sanitizeForPipeName s = (if s = [] then ascii "user" else s).map sanitizeByte := by
  cases s with
  | nil => decide
  | cons u s => rfl

theorem currentUserName_eq (hwin : win.Documented) (account : Account) :
    currentUserName win account = account.segment.map sanitizeByte := by
  have huser : (ascii "user").map sanitizeByte = ascii "user" := by decide
  by_cases hfits : (Utf16.encodeText account.name).length ≤ unlen
  · obtain ⟨rest, hget⟩ := hwin.stored account (unlen + 1) (by omega)
    rw [currentUserName, hget]
    dsimp only
    rw [wideToUtf8_buffer hwin, sanitizeForPipeName_eq, Account.segment, if_pos hfits]
  · rw [currentUserName, hwin.tooLong account (unlen + 1) (by omega), Account.segment,
      if_neg hfits]
    cases account.username with
    | none => exact huser.symm
    | some env =>
        by_cases henv : env = []
        · subst henv
          exact huser.symm
        · dsimp only
          rw [if_pos henv, sanitizeForPipeName_eq, Option.getD_some]

/-- An empty `DAFENG_DAEMON_ADDR` counts as none. -/
theorem getDaemonAddress_default (hwin : win.Documented) {overrideAddr : Option Bytes}
    (h : overrideAddr.getD [] = []) (account : Account) :
    getDaemonAddress win overrideAddr account =
      pipePrefix ++ account.segment.map sanitizeByte := by
  rw [← currentUserName_eq hwin]
  cases overrideAddr with
  | none => rfl
  | some addr =>
      obtain rfl : addr = [] := h
      rfl

/-! ### Telling accounts apart -/

/-- A letter in lower case. -/
def lowerByte (u : UInt8) : UInt8 := if 0x41 ≤ u && u ≤ 0x5A then u + 0x20 else u

/-- The pipe that an address names: the system takes no notice of case. -/
def pipeOf (addr : Bytes) : Bytes := addr.map lowerByte

/-- The byte still shows when the name has been sanitized: it is kept, and it is not
the byte that stands for all others. -/
def Shows (u : UInt8) : Prop := isPipeByte u = true ∧ u ≠ 0x5F

instance (u : UInt8) : Decidable (Shows u) := inferInstanceAs (Decidable (_ ∧ _))

/-- The texts have different lengths, or different bytes somewhere of which one
shows; `fold` says which bytes count as one. -/
def TellApart (fold : UInt8 → UInt8) (s t : Bytes) : Prop :=
  s.length ≠ t.length ∨
    ∃ (i : Nat) (x y : UInt8), s[i]? = some x ∧ t[i]? = some y ∧ fold x ≠ fold y ∧
      (Shows x ∨ Shows y)

/-- Two lists have different images exactly where their lengths or the images of two
entries differ. -/
theorem map_ne_map_iff {α β : Type} {f : α → β} {s t : List α} :
    s.map f ≠ t.map f ↔
      s.length ≠ t.length ∨
        ∃ (i : Nat) (x y : α), s[i]? = some x ∧ t[i]? = some y ∧ f x ≠ f y := by
  induction s generalizing t with
  | nil => cases t <;> simp
  | cons a s ih =>
      cases t with
      | nil => simp
      | cons b t =>
          have hcons : (a :: s).map f ≠ (b :: t).map f ↔ f a ≠ f b ∨ s.map f ≠ t.map f := by
            rw [List.map_cons, List.map_cons, Ne, List.cons.injEq, not_and_or]
          rw [hcons, ih, List.length_cons, List.length_cons, Nat.add_right_cancel_iff.ne]
          constructor
          · rintro (hab | hlen | ⟨i, x, y, hx, hy, hne⟩)
            · exact .inr ⟨0, a, b, rfl, rfl, hab⟩
            · exact .inl hlen
            · exact .inr ⟨i + 1, x, y, hx, hy, hne⟩
          · rintro (hlen | ⟨i, x, y, hx, hy, hne⟩)
            · exact .inr (.inl hlen)
            · cases i with
              | zero =>
                  obtain rfl := Option.some.inj hx
                  obtain rfl := Option.some.inj hy
                  exact .inl hne
              | succ i => exact .inr (.inr ⟨i, x, y, hx, hy, hne⟩)

/-- Sanitizing keeps two bytes apart exactly where one of them shows. -/
theorem fold_sanitizeByte_ne_iff {fold : UInt8 → UInt8}
    (hshows : ∀ u, Shows (fold u) ↔ Shows u) (x y : UInt8) :
    fold (sanitizeByte x) ≠ fold (sanitizeByte y) ↔ fold x ≠ fold y ∧ (Shows x ∨ Shows y) := by
  have hshown : ∀ u, Shows u → sanitizeByte u = u := fun u hu => if_pos hu.1
  have hhidden : ∀ u, ¬ Shows u → sanitizeByte u = 0x5F := by
    intro u hu
    rw [sanitizeByte]
    split
    next hkeep => exact not_not.mp fun hne => hu ⟨hkeep, hne⟩
    next => rfl
  -- a byte that shows is told apart from one that does not, in either reading
  have hapart : ∀ u v, Shows u → ¬ Shows v → fold u ≠ fold v := fun u v hu hv heq =>
    hv ((hshows v).mp (heq ▸ (hshows u).mpr hu))
  by_cases hx : Shows x <;> by_cases hy : Shows y
  · rw [hshown x hx, hshown y hy]
    exact ⟨fun h => ⟨h, .inl hx⟩, fun h => h.1⟩
  · rw [hshown x hx, hhidden y hy]
    exact ⟨fun _ => ⟨hapart x y hx hy, .inl hx⟩, fun _ => hapart x 0x5F hx (by decide)⟩
  · rw [hhidden x hx, hshown y hy]
    exact ⟨fun _ => ⟨(hapart y x hy hx).symm, .inr hy⟩,
      fun _ => (hapart y 0x5F hy (by decide)).symm⟩
  · rw [hhidden x hx, hhidden y hy]
    exact ⟨fun h => absurd rfl h, fun h => absurd h.2 (not_or.mpr ⟨hx, hy⟩)⟩

/-- What shows is a letter, a digit, `-` or `.`. -/
theorem shows_iff (u : UInt8) : Shows u ↔
    (97 ≤ u.toNat ∧ u.toNat ≤ 122) ∨ (65 ≤ u.toNat ∧ u.toNat ≤ 90) ∨
      (48 ≤ u.toNat ∧ u.toNat ≤ 57) ∨ u.toNat = 45 ∨ u.toNat = 46 := by
  have hrest : u ≠ 0x5F ↔ u.toNat ≠ 95 := by
    rw [Ne, ← UInt8.toNat_inj]
    rfl
  rw [Shows, hrest]
  simp only [isPipeByte, Bool.or_eq_true, Bool.and_eq_true, decide_eq_true_eq, beq_iff_eq,
    UInt8.le_iff_toNat_le, ← UInt8.toNat_inj, UInt8.reduceToNat]
  omega

theorem shows_lowerByte (u : UInt8) : Shows (lowerByte u) ↔ Shows u := by
  rw [lowerByte]
  split
  next hupper =>
    simp only [Bool.and_eq_true, decide_eq_true_eq, UInt8.le_iff_toNat_le, UInt8.reduceToNat]
      at hupper
    have hsum : (u + 0x20).toNat = u.toNat + 32 := by
      rw [UInt8.toNat_add]
      exact Nat.mod_eq_of_lt (by simp; omega)
    rw [shows_iff, shows_iff, hsum]
    omega
  next => rfl

theorem sanitized_ne_iff {fold : UInt8 → UInt8} (hshows : ∀ u, Shows (fold u) ↔ Shows u)
    (s t : Bytes) :
    (s.map sanitizeByte).map fold ≠ (t.map sanitizeByte).map fold ↔ TellApart fold s t := by
  rw [List.map_map, List.map_map, map_ne_map_iff, TellApart]
  simp only [Function.comp_apply, fold_sanitizeByte_ne_iff hshows]

theorem map_sanitizeByte_ne_iff (s t : Bytes) :
    s.map sanitizeByte ≠ t.map sanitizeByte ↔ TellApart id s t := by
  have hne := @sanitized_ne_iff id (fun _ => Iff.rfl) s t
  rwa [List.map_id, List.map_id] at hne

/-- Two accounts have different default addresses exactly where the texts their
addresses are made of are told apart by their length or by a byte that shows. The
addresses name different pipes exactly where it is not only by case. -/
theorem default_address_ne_iff (hwin : win.Documented) (a b : Account) :
    (getDaemonAddress win none a ≠ getDaemonAddress win none b ↔
        TellApart id a.segment b.segment) ∧
      (pipeOf (getDaemonAddress win none a) ≠ pipeOf (getDaemonAddress win none b) ↔
        TellApart lowerByte a.segment b.segment) := by
  rw [getDaemonAddress_default hwin rfl, getDaemonAddress_default hwin rfl]
  constructor
  · rw [← map_sanitizeByte_ne_iff, Ne, List.append_cancel_left_eq]
  · rw [← sanitized_ne_iff shows_lowerByte, Ne, pipeOf, pipeOf, List.map_append, List.map_append,
      List.append_cancel_left_eq]

/-- The two functions in Lean. The buffer is zeroed, and a surrogate without its partner
becomes the replacement character. -/
def win32 : Win32 where
  getUserNameW account size :=
    let units := Utf16.encodeText account.name
    if units.length < size then some (units ++ List.replicate (size - units.length) 0) else none
  wideCharToMultiByte units := Utf8.encodeText (Utf16.decodeText units)

theorem win32_documented : win32.Documented where
  stored account size hfits := by
    obtain ⟨k, hk⟩ := Nat.exists_eq_add_of_lt hfits
    refine ⟨List.replicate k 0, (if_pos hfits).trans ?_⟩
    rw [← List.replicate_succ]
    congr 3
    omega
  tooLong _ _ hlong := if_neg (Nat.not_lt.mpr hlong)
  utf8 cs := congrArg Utf8.encodeText (Utf16.decodeText_encodeText cs)

/-- A letter tells two users apart, but not its case. -/
theorem default_address_ne_iff_ascii :
    let lower : Account := ⟨['a', '张'], by decide, none⟩
    let upper : Account := ⟨['A', '李'], by decide, none⟩
    let other : Account := ⟨['b', '张'], by decide, none⟩
    getDaemonAddress win32 none lower ≠ getDaemonAddress win32 none upper ∧
      pipeOf (getDaemonAddress win32 none lower) = pipeOf (getDaemonAddress win32 none upper) ∧
      pipeOf (getDaemonAddress win32 none lower) ≠ pipeOf (getDaemonAddress win32 none other) := by
  intro lower upper other
  have hcase := default_address_ne_iff win32_documented lower upper
  refine ⟨hcase.1.mpr (.inr ⟨0, 0x61, 0x41, by decide⟩), not_not.mp (mt hcase.2.mp ?_),
    (default_address_ne_iff win32_documented lower other).2.mpr
      (.inr ⟨0, 0x61, 0x62, by decide⟩)⟩
  rw [← sanitized_ne_iff shows_lowerByte]
  decide

/-- Two users whose names show nothing meet at one address. -/
theorem default_address_collides :
    let zhang : Account := ⟨['张', '三'], by decide, none⟩
    let li : Account := ⟨['李', '四'], by decide, none⟩
    zhang.name.map Char.toLower ≠ li.name.map Char.toLower ∧
      getDaemonAddress win32 none zhang = getDaemonAddress win32 none li := by
  decide

/-! ### Names that show and names that do not -/

/-- An account whose text shows every byte has an address of its own. -/
theorem address_ne_iff_of_shows (hwin : win.Documented) {a b : Account}
    (ha : ∀ u ∈ a.segment, Shows u) :
    getDaemonAddress win none a ≠ getDaemonAddress win none b ↔ a.segment ≠ b.segment := by
  rw [getDaemonAddress_default hwin rfl, getDaemonAddress_default hwin rfl, Ne,
    List.append_cancel_left_eq, ← Ne, map_sanitizeByte_ne_iff]
  have hne := @map_ne_map_iff UInt8 UInt8 id a.segment b.segment
  rw [List.map_id, List.map_id] at hne
  rw [hne, TellApart]
  refine or_congr_right (exists_congr fun i => exists_congr fun x => exists_congr fun y => ?_)
  constructor
  · intro ⟨hx, hy, hxy, _⟩
    exact ⟨hx, hy, hxy⟩
  · intro ⟨hx, hy, hxy⟩
    exact ⟨hx, hy, hxy, .inl (ha x (List.mem_of_getElem? hx))⟩

theorem segment_of_fits {a : Account} (hfits : (Utf16.encodeText a.name).length ≤ unlen)
    (hname : a.name ≠ []) : a.segment = Utf8.encodeText a.name := by
  have hne : Utf8.encodeText a.name ≠ [] := fun hnil =>
    hname (Utf8.encodeText_injective (hnil.trans Utf8.encodeText_nil.symm))
  rw [Account.segment, if_pos hfits]
  exact if_neg hne

/-- No byte of a character outside ASCII shows. -/
theorem not_shows_of_nonAscii {cs : List Char} (h : ∀ c ∈ cs, 128 ≤ c.toNat) :
    ∀ u ∈ Utf8.encodeText cs, ¬ Shows u := by
  intro u hu hshows
  obtain ⟨c, hc, hmem⟩ := List.mem_flatMap.mp hu
  have hle := Utf8.le_of_mem_encodeChar (h c hc) hmem
  rw [shows_iff] at hshows
  omega

/-- Names outside ASCII have one address whenever they are equally long in UTF-8. -/
theorem same_address_of_nonAscii (hwin : win.Documented) {a b : Account}
    (hfits : (Utf16.encodeText a.name).length ≤ unlen)
    (hfits' : (Utf16.encodeText b.name).length ≤ unlen)
    (hname : a.name ≠ []) (hname' : b.name ≠ [])
    (hforeign : ∀ c ∈ a.name, 128 ≤ c.toNat) (hforeign' : ∀ c ∈ b.name, 128 ≤ c.toNat)
    (hlen : (Utf8.encodeText a.name).length = (Utf8.encodeText b.name).length) :
    getDaemonAddress win none a = getDaemonAddress win none b := by
  rw [getDaemonAddress_default hwin rfl, getDaemonAddress_default hwin rfl,
    segment_of_fits hfits hname, segment_of_fits hfits' hname']
  have hapart : ¬ TellApart id (Utf8.encodeText a.name) (Utf8.encodeText b.name) := by
    rintro (hne | ⟨i, x, y, hx, hy, -, hshows⟩)
    · exact hne hlen
    · rcases hshows with h | h
      · exact not_shows_of_nonAscii hforeign x (List.mem_of_getElem? hx) h
      · exact not_shows_of_nonAscii hforeign' y (List.mem_of_getElem? hy) h
  rw [not_not.mp (mt (map_sanitizeByte_ne_iff _ _).mp hapart)]

end Dafeng.Endpoint
