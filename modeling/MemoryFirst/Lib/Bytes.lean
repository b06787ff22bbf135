/-
Little-endian numbers and sequential byte readers, with the laws a
binary format's round trip is assembled from.

A reader is a `Parser ε α`: it consumes a front part of the bytes it is
given or fails with an error. `Reads p bytes a` says that `p`, given
`bytes` and whatever follows them, consumes exactly `bytes` and returns
`a`; it is the one fact a format proof needs about a field, and it
composes along `bind` (`Reads.bind`), so that a record's round trip
follows the text of its reader. `Consumes p R` says that every value `p`
returns is related to the bytes it took, `Fails p E` that every error it
fails with satisfies `E`; both compose in the same way.

A text is read back from its UTF-8 bytes (`fromUtf8_utf8`), and a
sequence of checks is written with `failIf`. The file names no format.
-/
import Mathlib.Tactic.Ring

namespace MemoryFirst.Lib

open List

-- ===== little-endian numbers

/-- The `k` low bytes of `n`, least significant first. -/
def leBytes : Nat → Nat → List UInt8
  | 0, _ => []
  | k + 1, n => UInt8.ofNat n :: leBytes k (n / 256)

/-- The number the bytes spell, least significant first. -/
def leNat : List UInt8 → Nat
  | [] => 0
  | b :: l => b.toNat + 256 * leNat l

@[simp] theorem length_leBytes (k n : Nat) : (leBytes k n).length = k := by
  induction k generalizing n with
  | zero => rfl
  | succ k ih => simp [leBytes, ih]

theorem leNat_leBytes (k n : Nat) : leNat (leBytes k n) = n % 256 ^ k := by
  induction k generalizing n with
  | zero => simp [leBytes, leNat, Nat.mod_one]
  | succ k ih =>
    have hb : (UInt8.ofNat n).toNat = n % 256 := by simp
    rw [leBytes, leNat, ih, hb, Nat.pow_succ', Nat.mod_mul]

theorem leNat_leBytes_of_lt {k n : Nat} (h : n < 256 ^ k) : leNat (leBytes k n) = n := by
  rw [leNat_leBytes, Nat.mod_eq_of_lt h]

theorem leNat_lt (l : List UInt8) : leNat l < 256 ^ l.length := by
  induction l with
  | nil => simp [leNat]
  | cons b l ih =>
    have hb : b.toNat < 256 := b.toNat_lt
    simp only [leNat, length_cons, Nat.pow_succ]
    omega

/-- Equally long byte strings that spell the same number are equal. -/
theorem leNat_inj {l l' : List UInt8} (hlen : l.length = l'.length)
    (h : leNat l = leNat l') : l = l' := by
  induction l generalizing l' with
  | nil => simpa using hlen.symm
  | cons b l ih =>
    cases l' with
    | nil => simp at hlen
    | cons b' l' =>
      have hb : b.toNat < 256 := b.toNat_lt
      have hb' : b'.toNat < 256 := b'.toNat_lt
      simp only [leNat] at h
      have hhead : b = b' := UInt8.toNat_inj.1 (by omega)
      have htail : l = l' := ih (by simpa using hlen) (by omega)
      rw [hhead, htail]

/-- Bytes are the encoding of the number they spell. -/
theorem leBytes_leNat (l : List UInt8) : leBytes l.length (leNat l) = l := by
  refine leNat_inj (length_leBytes _ _) ?_
  exact leNat_leBytes_of_lt (leNat_lt l)

-- ===== text

/-- The UTF-8 bytes of a text. -/
def utf8 (s : String) : List UInt8 := s.toUTF8.data.toList

/-- The text that has the given UTF-8 bytes, if there is one. -/
def fromUtf8 (bytes : List UInt8) : Option String :=
  String.fromUTF8? ⟨bytes.toArray⟩

theorem fromUtf8_utf8 (s : String) : fromUtf8 (utf8 s) = some s := by
  exact dif_pos s.isValidUTF8

variable {s : String} {α β ε : Type} {x : Except ε α} {a : α}

theorem utf8_inj {t : String} (h : utf8 s = utf8 t) : s = t := by
  have hs := fromUtf8_utf8 s
  rw [h, fromUtf8_utf8] at hs
  exact (Option.some.inj hs).symm

/-- Only the UTF-8 bytes of a text decode to it. -/
theorem utf8_of_fromUtf8 {bytes : List UInt8} (h : fromUtf8 bytes = some s) : utf8 s = bytes := by
  unfold fromUtf8 String.fromUTF8? at h
  split at h
  case isFalse => cases h
  case isTrue =>
    cases h
    rfl

-- ===== fallible steps

/-- Fails with `e` when the condition holds. -/
def failIf {ε : Type} (c : Prop) [Decidable c] (e : ε) : Except ε Unit :=
  if c then .error e else .ok ()

variable {c : Prop} [Decidable c]

theorem failIf_eq_ok {e : ε} : failIf c e = .ok () ↔ ¬ c := by
  unfold failIf
  split <;> simp_all

theorem toOption_eq_some : x.toOption = some a ↔ x = .ok a := by
  cases x <;> simp [Except.toOption]

@[simp] theorem ok_bind (a : α) (f : α → Except ε β) : ((.ok a : Except ε α) >>= f) = f a := rfl

@[simp] theorem error_bind (e : ε) (f : α → Except ε β) :
    ((.error e : Except ε α) >>= f) = .error e := rfl

/-- The branch that gives another result was not taken. -/
theorem of_ite_eq {p : Prop} [Decidable p] {x y z : α}
    (h : (if p then x else y) = z) (hne : x ≠ z) : ¬ p ∧ y = z := by
  by_cases hp : p
  · rw [if_pos hp] at h
    exact absurd h hne
  · rw [if_neg hp] at h
    exact ⟨hp, h⟩

/-- A fallible sequence succeeds exactly when its first step does and
the rest does on its result. -/
theorem bind_eq_ok {f : α → Except ε β} {b : β} :
    (x >>= f) = .ok b ↔ ∃ a, x = .ok a ∧ f a = .ok b := by
  cases x with
  | error e =>
    refine ⟨fun h => ?_, ?_⟩
    · cases h
    · rintro ⟨a, h, -⟩
      cases h
  | ok a =>
    refine ⟨fun h => ⟨a, rfl, h⟩, ?_⟩
    rintro ⟨a', h, hf⟩
    cases h
    exact hf

/-- What every step of a fallible fold keeps. -/
theorem foldlM_inv {f : α → β → Except ε α} (P : α → Prop) {l : List β}
    (hstep : ∀ a b a', b ∈ l → P a → f a b = .ok a' → P a') {a' : α}
    (ha : P a) (h : l.foldlM f a = .ok a') : P a' := by
  induction l generalizing a with
  | nil =>
    cases h
    exact ha
  | cons b l ih =>
    obtain ⟨a₁, h₁, h⟩ := bind_eq_ok.1 h
    exact ih (fun a b a' hb => hstep a b a' (mem_cons_of_mem _ hb))
      (hstep a b a₁ mem_cons_self ha h₁) h

theorem mapError_eq_ok {ε' : Type} {f : ε → ε'} : x.mapError f = .ok a ↔ x = .ok a := by
  cases x <;> simp [Except.mapError]

-- ===== readers

/-- A reader of a front part of its input. -/
abbrev Parser (ε α : Type) := StateT (List UInt8) (Except ε) α

/-- The next `n` bytes, or `e` when there are fewer. -/
def takeBytes {ε : Type} (e : ε) (n : Nat) : Parser ε (List UInt8) :=
  fun bytes =>
    if bytes.length < n then .error e
    else .ok (bytes.take n, bytes.drop n)

/-- The next `k` bytes as a number. -/
def readNat {ε : Type} (e : ε) (k : Nat) : Parser ε Nat := do
  let bytes ← takeBytes e k
  return leNat bytes

/-- `n` items, one after another. -/
def readMany {ε α : Type} (p : Parser ε α) : Nat → Parser ε (List α)
  | 0 => pure []
  | n + 1 => do
    let a ← p
    let l ← readMany p n
    return a :: l

/-- A count of items of a minimal size must fit the unread bytes. -/
def roomFor {ε : Type} (e : ε) (minBytes count : Nat) : Parser ε Unit := do
  let rest ← get
  if rest.length / minBytes < count then throw e else return ()

/-- The parser consumes exactly `bytes`, whatever follows, and returns
`a`. -/
def Reads {ε α : Type} (p : Parser ε α) (bytes : List UInt8) (a : α) : Prop :=
  ∀ rest, p.run (bytes ++ rest) = .ok (a, rest)

section

variable {ε α β : Type}

theorem Reads.pure (a : α) : Reads (Pure.pure a : Parser ε α) [] a :=
  fun _ => rfl

variable {bytes : List UInt8} {p : Parser ε α} {a : α} {f : α → Parser ε β} {b : β}

theorem Reads.bind {bytes' : List UInt8} (hp : Reads p bytes a)
    (hf : Reads (f a) bytes' b) : Reads (p >>= f) (bytes ++ bytes') b := by
  intro rest
  rw [append_assoc, StateT.run_bind, hp]
  exact hf rest

/-- A step that consumes nothing, such as a check that passes. -/
theorem Reads.bind_nil (hp : Reads p [] a) (hf : Reads (f a) bytes b) : Reads (p >>= f) bytes b :=
  hp.bind hf

/-- The last step that consumes something. -/
theorem Reads.bind_last (hp : Reads p bytes a) (hf : Reads (f a) [] b) :
    Reads (p >>= f) bytes b := by
  rw [← append_nil bytes]
  exact hp.bind hf

/-- The last step of a reader. -/
theorem Reads.bind_pure {f : α → β} (hp : Reads p bytes a) :
    Reads (p >>= fun a => Pure.pure (f a)) bytes (f a) :=
  hp.bind_last (Reads.pure (f a))

/-- A check on what was read consumes nothing. -/
theorem reads_liftM {x : Except ε α} (h : x = .ok a) : Reads (liftM x : Parser ε α) [] a := by
  intro rest
  subst h
  rfl

theorem Reads.ite_neg {q : Parser ε α} (hc : ¬ c)
    (hq : Reads q bytes a) : Reads (if c then p else q) bytes a := by
  rw [if_neg hc]
  exact hq

theorem reads_takeBytes (e : ε) {n : Nat} (h : bytes.length = n) :
    Reads (takeBytes e n) bytes bytes := by
  intro rest
  subst h
  simp [takeBytes, StateT.run]

theorem reads_readNat (e : ε) {k n : Nat} (h : n < 256 ^ k) :
    Reads (readNat e k) (leBytes k n) n := by
  have hread := (reads_takeBytes e (length_leBytes k n)).bind_pure (f := leNat)
  rwa [leNat_leBytes_of_lt h] at hread

/-- A count of items passes if the items are that long. -/
theorem reads_roomFor (e : ε) {minBytes count : Nat} (hmin : 0 < minBytes)
    {f : Parser ε β} (hlen : count * minBytes ≤ bytes.length)
    (hf : Reads f bytes b) :
    Reads (roomFor e minBytes count >>= fun _ => f) bytes b := by
  intro rest
  have hle : count ≤ (bytes ++ rest).length / minBytes := by
    rw [Nat.le_div_iff_mul_le hmin, length_append]
    omega
  have hcheck : (roomFor e minBytes count).run (bytes ++ rest) = .ok ((), bytes ++ rest) := by
    show StateT.run (if (bytes ++ rest).length / minBytes < count then
        throw e else pure () : Parser ε Unit) (bytes ++ rest) = _
    rw [if_neg (by omega)]
    rfl
  rw [StateT.run_bind, hcheck]
  exact hf rest

/-- Items that each read back read back as a counted run. -/
theorem reads_readMany {enc : α → List UInt8} {l : List α} (h : ∀ a ∈ l, Reads p (enc a) a) :
    Reads (readMany p l.length) (l.flatMap enc) l := by
  induction l with
  | nil => exact Reads.pure []
  | cons a l ih =>
    have hhead := h a mem_cons_self
    have htail := ih fun b hb => h b (mem_cons_of_mem a hb)
    exact hhead.bind htail.bind_pure

/-- A reader applied to exactly the bytes it reads. -/
theorem Reads.run_eq (h : Reads p bytes a) : p.run bytes = .ok (a, []) := by
  have hnil := h []
  rwa [append_nil] at hnil

end

-- ===== what a reader consumed

/-- Whatever the parser returns, it took the bytes related to it from
the front of its input. -/
def Consumes {ε α : Type} (p : Parser ε α) (R : List UInt8 → α → Prop) : Prop :=
  ∀ bytes a rest, p.run bytes = .ok (a, rest) → ∃ front, bytes = front ++ rest ∧ R front a

section

variable {ε α β : Type} {R : List UInt8 → α → Prop}

theorem Consumes.pure {a : α} (h : R [] a) : Consumes (Pure.pure a : Parser ε α) R := by
  intro bytes b rest hrun
  cases hrun
  exact ⟨[], rfl, h⟩

theorem consumes_throw (e : ε) : Consumes (throw e : Parser ε α) R := by
  intro bytes a rest hrun
  cases hrun

variable {f : α → Parser ε β}

theorem Consumes.bind {p : Parser ε α} {Q : List UInt8 → β → Prop} (hp : Consumes p R)
    (hf : ∀ front a, R front a → Consumes (f a) fun back b => Q (front ++ back) b) :
    Consumes (p >>= f) Q := by
  intro bytes b rest hrun
  obtain ⟨⟨a, mid⟩, hfirst, hnext⟩ := bind_eq_ok.1 hrun
  obtain ⟨front, hbytes, hR⟩ := hp bytes a mid hfirst
  obtain ⟨back, hmid, hQ⟩ := hf front a hR mid b rest hnext
  subst hbytes hmid
  exact ⟨front ++ back, (append_assoc front back rest).symm, hQ⟩

theorem Consumes.ite {p q : Parser ε α} (hp : c → Consumes p R) (hq : ¬ c → Consumes q R) :
    Consumes (if c then p else q) R := by
  split
  case isTrue h => exact hp h
  case isFalse h => exact hq h

/-- A check on decoded data consumes nothing. -/
theorem consumes_liftM (x : Except ε α) : Consumes (liftM x : Parser ε α) fun front a =>
      front = [] ∧ x = .ok a := by
  intro bytes a rest hrun
  cases x with
  | error e => cases hrun
  | ok b =>
    cases hrun
    exact ⟨[], rfl, rfl, rfl⟩

theorem consumes_takeBytes (e : ε) (n : Nat) : Consumes (takeBytes e n) fun front bytes =>
      front = bytes ∧ bytes.length = n := by
  intro bytes a rest hrun
  unfold takeBytes StateT.run at hrun
  dsimp only at hrun
  split at hrun
  case isTrue => cases hrun
  case isFalse h =>
    cases hrun
    refine ⟨bytes.take n, (take_append_drop n bytes).symm, rfl, ?_⟩
    rw [length_take]
    omega

theorem consumes_readNat (e : ε) (k : Nat) : Consumes (readNat e k) fun front n =>
      front = leBytes k n ∧ n < 256 ^ k := by
  refine (consumes_takeBytes e k).bind fun front bytes hfront => ?_
  obtain ⟨rfl, rfl⟩ := hfront
  refine Consumes.pure ⟨?_, leNat_lt front⟩
  rw [append_nil, leBytes_leNat]

theorem Consumes.mono {p : Parser ε α} {Q : List UInt8 → α → Prop} (hp : Consumes p R)
    (h : ∀ front a, R front a → Q front a) : Consumes p Q := by
  intro bytes a rest hrun
  obtain ⟨front, hbytes, hR⟩ := hp bytes a rest hrun
  exact ⟨front, hbytes, h front a hR⟩

/-- The last step of a reader. -/
theorem Consumes.bind_pure {p : Parser ε α} {Q : List UInt8 → β → Prop} {f : α → β} (hp : Consumes p R)
    (h : ∀ front a, R front a → Q front (f a)) :
    Consumes (p >>= fun a => Pure.pure (f a)) Q := by
  refine hp.bind fun front a hR => Consumes.pure ?_
  rw [append_nil]
  exact h front a hR

theorem consumes_roomFor (e : ε) (minBytes count : Nat) :
    Consumes (roomFor e minBytes count) fun front _ => front = [] := by
  intro bytes a rest hrun
  have hrun : (if bytes.length / minBytes < count then throw e else pure () : Parser ε Unit).run
      bytes = .ok (a, rest) := hrun
  split at hrun
  · cases hrun
  · cases hrun
    exact ⟨[], rfl, rfl⟩

/-- Bytes behind their count. -/
theorem consumes_counted (e e' e'' : ε) (k limit : Nat) :
    Consumes (readNat e k >>= fun len => if limit < len then throw e' else takeBytes e'' len)
      fun front bytes => front = leBytes k bytes.length ++ bytes ∧ bytes.length ≤ limit := by
  refine (consumes_readNat e k).bind fun front len hfront => ?_
  obtain ⟨rfl, -⟩ := hfront
  refine Consumes.ite (fun _ => consumes_throw _) fun hle => ?_
  refine (consumes_takeBytes e'' len).mono fun back bytes hback => ?_
  obtain ⟨rfl, rfl⟩ := hback
  exact ⟨rfl, Nat.not_lt.1 hle⟩

end

-- ===== what a reader fails with

/-- Whatever the parser fails with satisfies `E`. -/
def Fails {ε α : Type} (p : Parser ε α) (E : ε → Prop) : Prop :=
  ∀ bytes e, p.run bytes = .error e → E e

/-- A fallible sequence fails in its first step or behind it. -/
theorem bind_eq_error {f : α → Except ε β} {e : ε} : (x >>= f) = .error e ↔
      x = .error e ∨ ∃ a, x = .ok a ∧ f a = .error e := by
  cases x <;> simp

section

variable {ε α β : Type} {E : ε → Prop}

theorem Fails.pure (a : α) : Fails (Pure.pure a : Parser ε α) E := by
  intro bytes e h
  cases h

theorem Fails.throw {e : ε} (he : E e) : Fails (throw e : Parser ε α) E := by
  intro bytes e' h
  cases h
  exact he

theorem Fails.lift {x : Except ε α} (hx : ∀ e, x = .error e → E e) :
    Fails (liftM x : Parser ε α) E := by
  intro bytes e h
  cases x with
  | error =>
    cases h
    exact hx _ rfl
  | ok a => cases h

theorem Fails.bind {p : Parser ε α} {f : α → Parser ε β} (hp : Fails p E)
    (hf : ∀ a, Fails (f a) E) : Fails (p >>= f) E := by
  intro bytes e h
  rcases bind_eq_error.1 h with h | ⟨⟨a, rest⟩, -, h⟩
  · exact hp bytes e h
  · exact hf a rest e h

theorem Fails.ite {p q : Parser ε α} (hp : Fails p E) (hq : Fails q E) :
    Fails (if c then p else q) E := by
  split
  · exact hp
  · exact hq

theorem fails_takeBytes {e : ε} (he : E e) (n : Nat) : Fails (takeBytes e n) E := by
  intro bytes e' h
  unfold takeBytes StateT.run at h
  dsimp only at h
  split at h
  · cases h
    exact he
  · cases h

theorem fails_readNat {e : ε} (he : E e) (k : Nat) : Fails (readNat e k) E :=
  (fails_takeBytes he k).bind fun bytes => Fails.pure (leNat bytes)

end

end MemoryFirst.Lib
