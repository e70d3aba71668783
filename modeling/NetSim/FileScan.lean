import NetSim.ScanText

/-! fscanf: the directives of a format on what is left of a file. -/
namespace FileScan

open HostNode (isSpace isDigit)
open ScanText

inductive Directive where
  | blank | char | int | string
  deriving DecidableEq

inductive Value where
  | char (c : Int8)
  | int (z : ℤ)
  | string (word : List Int8)
  deriving DecidableEq

/-- The values that are assigned, in order, and what is left of the file. The first conversion that
fails ends the call. -/
def fscanf : List Directive → List Int8 → List Value × List Int8
  | [], s => ([], s)
  | .blank :: format, s => fscanf format (s.dropWhile isSpace)
  | .char :: format, s =>
    match s with
    | [] => ([], [])
    | c :: s => (fscanf format s).map (.char c :: ·) id
  | .int :: format, s =>
    match (takeInt s).1 with
    | none => ([], (takeInt s).2)
    | some z => (fscanf format (takeInt s).2).map (.int z :: ·) id
  | .string :: format, s =>
    match (takeWord s).1 with
    | none => ([], (takeWord s).2)
    | some word => (fscanf format (takeWord s).2).map (.string word :: ·) id

def conversions (format : List Directive) : ℕ := format.countP (· ≠ .blank)

def charAt (values : List Value) (k : ℕ) (old : Int8) : Int8 :=
  match values[k]? with
  | some (.char c) => c
  | _ => old

def intAt (values : List Value) (k : ℕ) (old : ℤ) : ℤ :=
  match values[k]? with
  | some (.int z) => z
  | _ => old

/-- The string in an array after `%s`, up to its first NUL character. -/
def stringAt (values : List Value) (k : ℕ) (old : List Int8) : List Int8 :=
  match values[k]? with
  | some (.string word) => CStrings.text word
  | _ => old

/-- The bytes that a conversion writes into its array, without the NUL character. -/
def width : Value → ℕ
  | .string word => word.length
  | _ => 0

/-- No `%s` writes more than an array of `size` bytes holds. -/
def StringsFit (size : ℕ) (values : List Value) : Prop := ∀ v ∈ values, width v < size

instance (size : ℕ) (values : List Value) : Decidable (StringsFit size values) :=
  inferInstanceAs (Decidable (∀ v ∈ values, width v < size))

/-- Every conversion of the format finds what it reads. -/
inductive Reads : List Directive → List Value → List Int8 → List Int8 → Prop where
  | done {s} : Reads [] [] s s
  | blank {format values blank s rest} : Blank blank → Stops isSpace s →
      Reads format values s rest → Reads (.blank :: format) values (blank ++ s) rest
  | char {format values c s rest} : Reads format values s rest →
      Reads (.char :: format) (.char c :: values) (c :: s) rest
  | int {format values blank z bytes s rest} : Blank blank → Numeral z bytes →
      Stops isDigit s → Reads format values s rest →
      Reads (.int :: format) (.int z :: values) (blank ++ (bytes ++ s)) rest
  | string {format values blank word s rest} : Blank blank → Solid word →
      Stops (fun b => !isSpace b) s → Reads format values s rest →
      Reads (.string :: format) (.string word :: values) (blank ++ (word ++ s)) rest

theorem fscanf_of_reads {format : List Directive} {values : List Value} {s rest : List Int8}
    (h : Reads format values s rest) : fscanf format s = (values, rest) := by
  induction h with
  | done => rfl
  | blank hblank hstops _ ih => rw [fscanf, dropWhile_of_stops hblank hstops, ih]
  | char _ ih =>
    rw [fscanf, ih]
    rfl
  | int hblank hbytes hstops _ ih =>
    simp only [fscanf, takeInt_numeral hbytes hblank hstops, ih]
    rfl
  | string hblank hword hstops _ ih =>
    simp only [fscanf, takeWord_solid hword hblank hstops, ih]
    rfl

def kind : Value → Directive
  | .char _ => .char
  | .int _ => .int
  | .string _ => .string

theorem Reads.kinds {format : List Directive} {values : List Value} {s rest : List Int8}
    (h : Reads format values s rest) : values.map kind = format.filter (· ≠ .blank) := by
  induction h with
  | done => rfl
  | blank _ _ _ ih => simpa using ih
  | char _ ih => simpa [kind] using ih
  | int _ _ _ _ ih => simpa [kind] using ih
  | string _ _ _ _ ih => simpa [kind] using ih

theorem kind_char {v : Value} (h : kind v = .char) : ∃ c, v = .char c := by
  cases v with
  | char c => exact ⟨c, rfl⟩
  | int => cases h
  | string => cases h

theorem kind_int {v : Value} (h : kind v = .int) : ∃ z, v = .int z := by
  cases v with
  | char => cases h
  | int z => exact ⟨z, rfl⟩
  | string => cases h

theorem kind_string {v : Value} (h : kind v = .string) : ∃ word, v = .string word := by
  cases v with
  | char => cases h
  | int => cases h
  | string word => exact ⟨word, rfl⟩

theorem reads_fscanf (format : List Directive) (s : List Int8)
    (h : (fscanf format s).1.length = conversions format) :
    Reads format (fscanf format s).1 s (fscanf format s).2 := by
  induction format generalizing s with
  | nil => exact .done
  | cons d format ih =>
    cases d with
    | blank =>
      have hread := ih (s.dropWhile isSpace) (by simpa [conversions, fscanf] using h)
      have hblank : Blank (s.takeWhile isSpace) := fun b hb => List.mem_takeWhile_imp hb
      have hall := Reads.blank hblank (stops_dropWhile isSpace s) hread
      rwa [List.takeWhile_append_dropWhile] at hall
    | char =>
      cases s with
      | nil => simp [fscanf, conversions] at h
      | cons c s => exact .char (ih s (by simpa [conversions, fscanf] using h))
    | int =>
      rw [fscanf] at h ⊢
      cases hz : (takeInt s).1 with
      | none => simp [hz, conversions] at h
      | some z =>
        obtain ⟨blank, bytes, hblank, hbytes, hstops, hs⟩ := takeInt_some hz
        simp only [hz, conversions, Prod.map_fst, List.length_cons] at h
        have hread := ih (takeInt s).2 (by simpa [conversions] using h)
        have hall := Reads.int hblank hbytes hstops hread
        rwa [← hs] at hall
    | string =>
      rw [fscanf] at h ⊢
      cases hz : (takeWord s).1 with
      | none => simp [hz, conversions] at h
      | some word =>
        obtain ⟨blank, hblank, hword, hstops, hs⟩ := takeWord_some hz
        simp only [hz, conversions, Prod.map_fst, List.length_cons] at h
        have hread := ih (takeWord s).2 (by simpa [conversions] using h)
        have hall := Reads.string hblank hword hstops hread
        rwa [← hs] at hall

end FileScan
