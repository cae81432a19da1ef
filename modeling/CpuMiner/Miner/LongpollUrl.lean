/-
Module: CpuMiner.Miner.LongpollUrl
Layer: Miner
Purpose: The URL that `longpoll_thread` makes of the value of the header `X-Long-Polling` and the URL of the server.
  The value is taken for a full URL if `://` stands anywhere in it, and is appended to the whole URL of the server if
  not. `announcedPlace_iff` says when this is the place that was announced.
Imports: Mathlib.Data.List.Infix, CpuMiner.Lib.Block, CpuMiner.Util.DataBuffer, CpuMiner.Util.Hex
Trusted boundary: human-reviewed spec (the transcription of the C code)
Main exports: copyStart, lpUrl, IsScheme, BeginsWithScheme, RpcUrl, RpcUrl.place, lpUrl_appended, AnnouncedPlace,
  announcedPlace_iff, not_announcedPlace
Open obligations: none
-/
import Mathlib.Data.List.Infix
import CpuMiner.Lib.Block
import CpuMiner.Util.DataBuffer
import CpuMiner.Util.Hex

namespace CpuMiner

open Words

/-! ### The code -/

/-- `"://"` -/
def schemeEnd : List Byte := [0x3a, 0x2f, 0x2f]

/-- `(*hdr_path == '/') ? (hdr_path + 1) : hdr_path` -/
def copyStart : List Byte → List Byte
  | c :: rest => if c = 0x2f then rest else c :: rest
  | [] => []

/-- The string of `lp_url`, or none when `malloc` fails and the thread ends. Nothing when the last character of
    `rpc_url` is looked for before its first one, or when `sprintf` writes more than was allocated. -/
def lpUrl (malloc : Bool) (rpcUrl hdrPath : CString) : Option (Option (List Byte)) :=
  if schemeEnd <:+: hdrPath.bytes then some (some hdrPath.bytes)
  else do
    let copied := copyStart hdrPath.bytes
    let last ← rpcUrl.bytes[rpcUrl.bytes.length - 1]?
    let slash := if last ≠ 0x2f then [0x2f] else []
    if malloc then
      let mem : List Cell := Block.resize none [] (rpcUrl.bytes.length + copied.length + 2)
      let text := rpcUrl.bytes ++ slash ++ copied
      let _ ← Block.store mem 0 ((text ++ [0]).map some)
      return some text
    else some none

/-! ### The place that is announced -/

def isAlpha (c : Byte) : Bool := (0x41 ≤ c && c ≤ 0x5a) || (0x61 ≤ c && c ≤ 0x7a)

/-- A letter, a digit, `+`, `-` or `.` -/
def isSchemeChar (c : Byte) : Bool := isAlpha c || (0x30 ≤ c && c ≤ 0x39) || c == 0x2b || c == 0x2d || c == 0x2e

/-- The scheme of a URL. -/
def IsScheme (s : List Byte) : Prop := (∃ c rest, s = c :: rest ∧ isAlpha c = true) ∧ ∀ c ∈ s, isSchemeChar c = true

/-- The string begins with the scheme of a URL and `://`. -/
def BeginsWithScheme (s : List Byte) : Prop := ∃ scheme rest, IsScheme scheme ∧ s = scheme ++ schemeEnd ++ rest

/-- A URL with a scheme, an authority and a path, which is empty or begins with a slash. -/
structure RpcUrl where
  scheme : List Byte
  authority : List Byte
  path : List Byte
  isScheme : IsScheme scheme
  hasAuthority : authority ≠ []
  delimited : ∀ c ∈ authority, c ≠ 0x2f ∧ c ≠ 0x3f ∧ c ≠ 0x23
  absolute : path = [] ∨ ∃ rest, path = 0x2f :: rest
  noNul : 0 ∉ scheme ++ schemeEnd ++ authority ++ path

namespace RpcUrl

/-- The URL as `rpc_url`. -/
def string (url : RpcUrl) : CString where
  bytes := url.scheme ++ schemeEnd ++ url.authority ++ url.path
  noNul := url.noNul

/-- The URL on the same server with this as its complete path and query. -/
def place (url : RpcUrl) (p : List Byte) : List Byte :=
  url.scheme ++ schemeEnd ++ url.authority ++ if p.head? = some 0x2f then p else 0x2f :: p

theorem string_bytes (url : RpcUrl) :
    url.string.bytes = url.scheme ++ schemeEnd ++ url.authority ++ url.path := rfl

theorem string_ne_nil (url : RpcUrl) : url.string.bytes ≠ [] := by
  simp [string_bytes, schemeEnd]

end RpcUrl

/-- Long polling goes to the announced place: `lp_url` fits into its memory, is the header value exactly when this
    begins with a scheme, and is else the URL of the server with the header value as its path and query. -/
def AnnouncedPlace (url : RpcUrl) (p : CString) : Prop :=
  ∃ lp, lpUrl true url.string p = some (some lp) ∧ (lp = p.bytes ↔ BeginsWithScheme p.bytes) ∧
    (¬ BeginsWithScheme p.bytes → lp = url.place p.bytes)

/-! ### Which place it is -/

theorem BeginsWithScheme.infix {s : List Byte} (begins : BeginsWithScheme s) : schemeEnd <:+: s := by
  obtain ⟨scheme, rest, _, rfl⟩ := begins
  exact ⟨scheme, rest, rfl⟩

/-- The header value as a path is a slash and what the code copies. -/
theorem slash_copyStart (p : List Byte) :
    (if p.head? = some 0x2f then p else 0x2f :: p) = 0x2f :: copyStart p := by
  cases p with
  | nil => rfl
  | cons c rest =>
      rw [List.head?_cons, copyStart]
      by_cases slash : c = 0x2f
      · rw [if_pos (congrArg some slash), if_pos slash, slash]
      · rw [if_neg fun same => slash (Option.some.inj same), if_neg slash]

theorem RpcUrl.place_eq (url : RpcUrl) (p : List Byte) :
    url.place p = url.scheme ++ schemeEnd ++ url.authority ++ 0x2f :: copyStart p := by
  rw [place, slash_copyStart]

theorem lpUrl_unchanged {p : CString} (found : schemeEnd <:+: p.bytes) (malloc : Bool) (rpcUrl : CString) :
    lpUrl malloc rpcUrl p = some (some p.bytes) := if_pos found

/-- What is appended fits into its memory. -/
theorem lpUrl_appended {rpcUrl p : CString} {front : List Byte} {last : Byte} (url : rpcUrl.bytes = front ++ [last])
    (notFound : ¬ schemeEnd <:+: p.bytes) :
    lpUrl true rpcUrl p =
      some (some (rpcUrl.bytes ++ (if last ≠ 0x2f then [0x2f] else []) ++ copyStart p.bytes)) := by
  have lastChar : rpcUrl.bytes[rpcUrl.bytes.length - 1]? = some last := by
    rw [url, List.length_append, List.length_singleton, Nat.add_sub_cancel]
    exact List.getElem?_concat_length
  have slash_le : (if last ≠ 0x2f then [(0x2f : Byte)] else []).length ≤ 1 := by
    split
    · exact le_rfl
    · exact Nat.zero_le 1
  have fits : ∀ cells : List Cell, cells.length = rpcUrl.bytes.length + (copyStart p.bytes).length + 2 →
      ∃ block, Block.store cells 0 ((rpcUrl.bytes ++ (if last ≠ 0x2f then [0x2f] else []) ++ copyStart p.bytes ++
        [0]).map some) = some block := by
    intro cells size
    refine ⟨_, if_pos ?_⟩
    simp only [List.length_map, List.length_append, List.length_singleton]
    omega
  obtain ⟨block, stored⟩ := fits _ (Block.length_resize none [] _)
  simp only [lpUrl, if_neg notFound, lastChar, Option.bind_eq_bind, Option.bind_some, if_true, stored, Option.pure_def]

theorem exists_last {s : List Byte} (nonempty : s ≠ []) : ∃ front last, s = front ++ [last] :=
  ⟨_, _, (List.dropLast_append_getLast nonempty).symm⟩

/-- The last character of the URL is that of its path, or of its authority when the path is empty. -/
theorem RpcUrl.last_of_path {url : RpcUrl} {front before : List Byte} {last c : Byte}
    (ends : url.string.bytes = front ++ [last]) (tail : url.authority ++ url.path = before ++ [c]) : last = c := by
  have whole : url.string.bytes = url.scheme ++ schemeEnd ++ before ++ [c] := by
    rw [url.string_bytes, List.append_assoc, tail, ← List.append_assoc]
  have same := congrArg List.getLast? (ends.symm.trans whole)
  rw [List.getLast?_concat, List.getLast?_concat] at same
  exact Option.some.inj same

/-- The path of the server and the slash that is added to it are one slash exactly when the path is empty or a slash. -/
private theorem path_slash_iff {url : RpcUrl} {front : List Byte} {last : Byte}
    (ends : url.string.bytes = front ++ [last]) :
    url.path ++ (if last ≠ 0x2f then [0x2f] else []) = [0x2f] ↔ url.path = [] ∨ url.path = [0x2f] := by
  rcases url.absolute with empty | ⟨rest, slashed⟩
  · -- the last character is that of the authority
    obtain ⟨before, c, authority⟩ := exists_last url.hasAuthority
    have noSlash : c ≠ 0x2f := (url.delimited c (by rw [authority]; simp)).1
    obtain rfl : last = c := url.last_of_path ends (by rw [empty, List.append_nil, authority])
    rw [empty, if_pos noSlash]
    exact iff_of_true rfl (.inl rfl)
  · rcases eq_or_ne rest [] with rfl | more
    · obtain rfl : last = 0x2f := url.last_of_path ends (by rw [slashed])
      rw [slashed]
      exact iff_of_true rfl (.inr rfl)
    · -- a longer path
      have long : 0 < rest.length := List.length_pos_of_ne_nil more
      rw [slashed]
      refine iff_of_false (fun same => ?_) ?_
      · have length := congrArg List.length same
        rw [List.length_append, List.length_cons, List.length_singleton] at length
        omega
      · rintro (same | same)
        · cases same
        · exact more (List.cons.inj same).2

/-- Long polling goes to the announced place exactly when the header value begins with a scheme, or has no `://` in it
    and the URL of the server has no path but a slash. -/
theorem announcedPlace_iff (url : RpcUrl) (p : CString) :
    AnnouncedPlace url p ↔
      BeginsWithScheme p.bytes ∨ (¬ schemeEnd <:+: p.bytes ∧ (url.path = [] ∨ url.path = [0x2f])) := by
  by_cases found : schemeEnd <:+: p.bytes
  · have unchanged := lpUrl_unchanged found true url.string
    constructor
    · rintro ⟨lp, made, same, _⟩
      rw [unchanged] at made
      cases made
      exact .inl (same.mp rfl)
    · rintro (begins | ⟨notFound, _⟩)
      · exact ⟨p.bytes, unchanged, iff_of_true rfl begins, fun not => absurd begins not⟩
      · exact absurd found notFound
  · have notBegins : ¬ BeginsWithScheme p.bytes := fun begins => found begins.infix
    obtain ⟨front, last, ends⟩ := exists_last url.string_ne_nil
    have made := lpUrl_appended ends found
    rw [← path_slash_iff ends]
    generalize (if last ≠ 0x2f then [(0x2f : Byte)] else []) = slash at made ⊢
    -- the string begins with the URL of the server, so it has `://` in it
    have changed : url.string.bytes ++ slash ++ copyStart p.bytes ≠ p.bytes := by
      intro same
      refine found ⟨url.scheme, url.authority ++ url.path ++ slash ++ copyStart p.bytes, ?_⟩
      simp only [← List.append_assoc]
      exact same
    have place : url.string.bytes ++ slash ++ copyStart p.bytes = url.place p.bytes ↔ url.path ++ slash = [0x2f] := by
      have end_slash : (0x2f : Byte) :: copyStart p.bytes = [0x2f] ++ copyStart p.bytes := rfl
      rw [url.place_eq, url.string_bytes, end_slash, List.append_assoc _ url.path slash, List.append_assoc,
        List.append_right_inj, List.append_left_inj]
    rw [← place]
    constructor
    · rintro ⟨lp, made', _, there⟩
      rw [made] at made'
      cases made'
      exact .inr ⟨found, there notBegins⟩
    · rintro (begins | ⟨_, there⟩)
      · exact absurd begins notBegins
      · exact ⟨_, made, iff_of_false changed notBegins, fun _ => there⟩

/-- `http://a`, with a path. -/
def exampleUrl (path : List Byte) (absolute : path = [] ∨ ∃ rest, path = 0x2f :: rest) (noNul : 0 ∉ path) :
    RpcUrl where
  scheme := [0x68, 0x74, 0x74, 0x70]
  authority := [0x61]
  path := path
  isScheme := ⟨⟨_, _, rfl, rfl⟩, by decide⟩
  hasAuthority := List.cons_ne_nil _ _
  delimited := by decide
  absolute := absolute
  noNul listed := (List.mem_append.mp listed).elim (by decide) noNul

/-- `http://a/b` -/
def subUrl : RpcUrl := exampleUrl [0x2f, 0x62] (.inr ⟨_, rfl⟩) (by decide)

/-- `/c` -/
def newPath : CString := ⟨[0x2f, 0x63], by decide⟩

/-- `/?u=b://` -/
def queryPath : CString := ⟨[0x2f, 0x3f, 0x75, 0x3d, 0x62, 0x3a, 0x2f, 0x2f], by decide⟩

/-- The path of the server is kept: `http://a/b` and `/c` give `http://a/b/c`. And a path with `://` in its query is
    used as it is. -/
theorem not_announcedPlace :
    (lpUrl true subUrl.string newPath = some (some (subUrl.string.bytes ++ newPath.bytes)) ∧
      ¬ AnnouncedPlace subUrl newPath) ∧
    (lpUrl true subUrl.string queryPath = some (some queryPath.bytes) ∧ ¬ AnnouncedPlace subUrl queryPath) := by
  have appended : lpUrl true subUrl.string newPath = some (some (subUrl.string.bytes ++ newPath.bytes)) := by decide
  have unchanged : lpUrl true subUrl.string queryPath = some (some queryPath.bytes) := by decide
  refine ⟨⟨appended, ?_⟩, unchanged, ?_⟩
  · rintro ⟨lp, made, _, there⟩
    rw [appended] at made
    obtain rfl := Option.some.inj (Option.some.inj made)
    have noScheme : ¬ schemeEnd <:+: newPath.bytes := by decide
    exact absurd (there fun begins => noScheme begins.infix) (by decide)
  · rintro ⟨lp, made, same, _⟩
    rw [unchanged] at made
    obtain rfl := Option.some.inj (Option.some.inj made)
    obtain ⟨scheme, rest, ⟨⟨c, tail, rfl, alpha⟩, _⟩, whole⟩ := same.mp rfl
    obtain rfl : 0x2f = c := (List.cons.inj whole).1
    cases alpha

end CpuMiner
