import Mathlib

namespace NemoRL.XToken.TokenAligner

section Tables

def visualByteMap : List (Char × ℕ) :=
  [('ð', 240), ('Ɩ', 241), ('Ɨ', 242), ('Ƙ', 243), ('ƙ', 244), ('ƚ', 245), ('ƛ', 246),
   ('Ɯ', 247), ('Ɲ', 248), ('ƞ', 249), ('Ɵ', 250), ('Ơ', 251), ('ơ', 252), ('Ƣ', 253),
   ('ƣ', 254), ('Ƥ', 255), ('Ł', 156), ('ł', 157), ('Ń', 158), ('ń', 159), ('ĺ', 149),
   ('Ļ', 150), ('ļ', 151), ('Ľ', 152), ('ľ', 153), ('Ŀ', 154), ('ŀ', 155), ('Ĭ', 135),
   ('ĭ', 136), ('Į', 137), ('į', 138), ('İ', 139), ('ı', 140), ('Ĳ', 141), ('ĳ', 142),
   ('Ĵ', 143), ('ĵ', 144), ('Ķ', 145), ('ķ', 146), ('ĸ', 147), ('Ĺ', 148), ('ĥ', 128),
   ('Ħ', 129), ('ħ', 130), ('Ĩ', 131), ('ĩ', 132), ('Ī', 133), ('ī', 134), ('Ģ', 162),
   ('ģ', 163), ('Ĝ', 28), ('ĝ', 29), ('Ğ', 30), ('ğ', 31)]

def multiTokenArtifactFixes : List (List String × List String) :=
  [(["ĠâĪ", "ĳ"], ["Ġ∑"]), (["âĪ", "ĳ"], ["∑"]), (["ĠâĪ", "ı"], ["Ġ∏"]), (["âĪ", "ı"], ["∏"]),
   (["ĠâĪ", "Ĥ"], ["Ġ∂"]), (["âĪ", "Ĥ"], ["∂"]), (["ĠâĪ", "ĩ"], ["Ġ∇"]), (["âĪ", "ĩ"], ["∇"]),
   (["ĠâĪ", "ŀ"], ["Ġ∞"]), (["âĪ", "ŀ"], ["∞"]), (["ĠâĪ", "ļ"], ["Ġ√"]), (["âĪ", "ļ"], ["√"]),
   (["ĠâĪ", "«"], ["Ġ∫"]), (["âĪ", "«"], ["∫"]), (["Ġâī", "ł"], ["Ġ≠"]), (["âī", "ł"], ["≠"]),
   (["Ġä¸", "Ń"], ["Ġ中"]), (["ä¸", "Ń"], ["中"]), (["æĸ", "ĩ"], ["文"]), (["Ġæĸ", "ĩ"], ["Ġ文"])]

def unicodeFixes : List (String × String) :=
  [("Ã±", "ñ"), ("Ã¡", "á"), ("Ã©", "é"), ("Ã\u00ad", "í"), ("Ã³", "ó"), ("Ãº", "ú"), ("Ã", "À"),
   ("Ã¢", "â"), ("Ã§", "ç"), ("Ã¨", "è"), ("Ã«", "ë"), ("Ã®", "î"), ("Ã´", "ô"), ("Ã¹", "ù"),
   ("Ã»", "û"), ("Ã¿", "ÿ"), ("ä¸Ń", "中"), ("æĸĩ", "文"), ("æĹ¥æľ¬", "日本"), ("èªŀ", "語"),
   ("ÐłÑĥÑģ", "Рус"), ("ÑģÐºÐ¸Ð¹", "ский"), ("Ø§ÙĦØ¹Ø±Ø¨ÙĬØ©", "العربية"), ("à¤¹", "ह"),
   ("à¤¿à¤Ĥ", "ह\u093f\u0902"), ("à¤¦à¥Ģ", "द\u0940"), ("âĪĳ", "∑"), ("âĪı", "∏"), ("âĪĤ", "∂"),
   ("âĪĩ", "∇"), ("âĪŀ", "∞"), ("âĪļ", "√"), ("âĪ«", "∫"), ("âīĪ", "≈"), ("âīł", "≠"),
   ("âī¤", "≤"), ("âī¥", "≥")]

def specialTokenMap : List (String × String) :=
  [("<|begin_of_text|>", "<bos>"), ("<bos>", "<bos>"), ("<pad>", "")]

end Tables

section Strings

/-- `str.replace`, the occurrences taken from the left; `skip` characters belong to the last. -/
def replaceChars (pattern replacement : List Char) : ℕ → List Char → List Char
  | _, [] => []
  | skip + 1, _ :: rest => replaceChars pattern replacement skip rest
  | 0, c :: rest =>
    if pattern.isPrefixOf (c :: rest) then
      replacement ++ replaceChars pattern replacement (pattern.length - 1) rest
    else c :: replaceChars pattern replacement 0 rest

def pyReplace (token broken fixed : String) : String :=
  String.ofList (replaceChars broken.toList fixed.toList 0 token.toList)

def pyContains (token broken : String) : Bool :=
  token.toList.tails.any (broken.toList.isPrefixOf ·)

def startsWith (token start : String) : Bool := start.toList.isPrefixOf token.toList

def lstripSpace (token : String) : List Char := token.toList.dropWhile (· == 'Ġ')

/-- The zeros of the decimal digits of Unicode, each with its nine successors after it. -/
def decimalZeros : List ℕ :=
  [0x30, 0x660, 0x6F0, 0x7C0, 0x966, 0x9E6, 0xA66, 0xAE6, 0xB66, 0xBE6, 0xC66, 0xCE6, 0xD66,
   0xDE6, 0xE50, 0xED0, 0xF20, 0x1040, 0x1090, 0x17E0, 0x1810, 0x1946, 0x19D0, 0x1A80, 0x1A90,
   0x1B50, 0x1BB0, 0x1C40, 0x1C50, 0xA620, 0xA8D0, 0xA900, 0xA9D0, 0xA9F0, 0xAA50, 0xABF0, 0xFF10,
   0x104A0, 0x10D30, 0x11066, 0x110F0, 0x11136, 0x111D0, 0x112F0, 0x11450, 0x114D0, 0x11650,
   0x116C0, 0x11730, 0x118E0, 0x11950, 0x11C50, 0x11D50, 0x11DA0, 0x11F50, 0x16A60, 0x16AC0,
   0x16B50, 0x1D7CE, 0x1D7D8, 0x1D7E2, 0x1D7EC, 0x1D7F6, 0x1E140, 0x1E2F0, 0x1E4F0, 0x1E950,
   0x1FBF0]

def decimalDigit (c : Char) : Option ℤ :=
  (decimalZeros.find? fun first ↦ first ≤ c.toNat ∧ c.toNat < first + 10).map fun first ↦
    (c.toNat - first : ℕ)

def hexDigit (c : Char) : Option ℤ :=
  if 'a' ≤ c ∧ c ≤ 'f' then some (c.toNat - 'a'.toNat + 10)
  else if 'A' ≤ c ∧ c ≤ 'F' then some (c.toNat - 'A'.toNat + 10)
  else decimalDigit c

def isBlank (c : Char) : Bool :=
  c.toNat ∈ [0x9, 0xA, 0xB, 0xC, 0xD, 0x20, 0x85, 0xA0, 0x1680, 0x2028, 0x2029, 0x202F, 0x205F,
    0x3000] ∨ 0x2000 ≤ c.toNat ∧ c.toNat ≤ 0x200A

/-- `int(s, 16)` of two characters, which may be a sign or a blank and a digit. -/
def hexByte (a b : Char) : Option ℤ :=
  if a = '+' ∨ isBlank a then hexDigit b
  else if a = '-' then (hexDigit b).map (- ·)
  else if isBlank b then hexDigit a
  else do return 16 * (← hexDigit a) + (← hexDigit b)

end Strings

def byteFallback (token : String) : Option String :=
  match token.toList with
  | ['<', '0', 'x', a, b, '>'] =>
    (hexByte a b).bind fun byteVal ↦
      if 0 ≤ byteVal ∧ byteVal ≤ 255 then some (String.singleton (Char.ofNat byteVal.toNat))
      else none
  | _ => none

def canonicalToken (token : String) : String :=
  if token = "" then token
  else
    -- Normalize space prefixes.
    let token := if startsWith token " " ∨ startsWith token "_" ∨ startsWith token "▁" then
      String.ofList ('Ġ' :: token.toList.tail) else token
    -- Newline and whitespace normalization.
    let token :=
      if token = "Ċ" then "\n"
      else if token = "\\n" then "\n"
      else if token = "ĉ" then "\n"
      else if token = "Ġ\n" then "\n"
      else if pyContains token "Ċ" then pyReplace token "Ċ" "\n"
      else if pyContains token "\\n" then pyReplace token "\\n" "\n"
      else token
    let token :=
      if token = "Ġ," then ","
      else if token = "Ġ." then "."
      else if token = "Ġ;" then ";"
      else if token = "Ġ:" then ":"
      else token
    match byteFallback token with
    | some c => c
    | none =>
      let token := unicodeFixes.foldl (fun token fix ↦
        if pyContains token fix.1 then pyReplace token fix.1 fix.2 else token) token
      (specialTokenMap.lookup token).getD token

def stringsEqualFlexible (s₁ s₂ : String) (ignoreLeadingCharDiff : Bool) : Bool :=
  if ignoreLeadingCharDiff then canonicalToken s₁ == canonicalToken s₂ else s₁ == s₂

section Merging

/-! Each token comes with the half-open range of original positions that it is built from. -/

/-- Merge known multi-token mojibake patterns into single tokens, from position `i`; the
first `skip` tokens belong to the last pattern. -/
def mergeEncodingArtifacts (i : ℕ) : ℕ → List String → List (String × (ℕ × ℕ))
  | _, [] => []
  | skip + 1, _ :: rest => mergeEncodingArtifacts (i + 1) skip rest
  | 0, token :: rest =>
    match multiTokenArtifactFixes.find? fun fix ↦ fix.1.isPrefixOf (token :: rest) with
    -- Every replacement is a single token.
    | some (pattern, replacement) => (replacement.headD "", (i, i + pattern.length)) ::
        mergeEncodingArtifacts (i + 1) (pattern.length - 1) rest
    | none => (token, (i, i + 1)) :: mergeEncodingArtifacts (i + 1) 0 rest

def getByteValue (c : Char) : Option ℕ :=
  if c.toNat < 256 then some c.toNat else visualByteMap.lookup c

def decodeUtf8 (rawBytes : List ℕ) : Option String :=
  String.fromUTF8? ⟨(rawBytes.map UInt8.ofNat).toArray⟩

def decodeByteTokens (byteTokens : List String) : Option String :=
  let rawBytes := byteTokens.flatMap fun token ↦ (lstripSpace token).map getByteValue
  if rawBytes.all Option.isSome then
    let rawBytes := rawBytes.reduceOption
    if rawBytes.length < 2 ∨ rawBytes.length > 4 then none
    else
      (decodeUtf8 rawBytes).bind fun decoded ↦ match decoded.toList with
        | [c] => if c.toNat > 127 then
            some (if (byteTokens.head?.map (startsWith · "Ġ")).getD false then
              String.ofList ['Ġ', c] else decoded)
          else none
        | _ => none
  else none

/-- A buffer that is one character becomes one token with one range; any other is unchanged. -/
def tryMergeByteBuffer (buffer : List (String × (ℕ × ℕ))) : List (String × (ℕ × ℕ)) :=
  match buffer with
  | [] => []
  | first :: rest =>
    if rest = [] ∧ (lstripSpace first.1).length ≤ 1 then buffer
    else match decodeByteTokens (buffer.map Prod.fst) with
      | some decoded => [(decoded, (first.2.1, ((first :: rest).getLastD first).2.2))]
      | none => buffer

def allBytes (token : String) : Bool :=
  let clean := lstripSpace token
  !clean.isEmpty && clean.all fun c ↦ (getByteValue c).isSome

def mergeConsecutiveBytes (byteBuffer : List (String × (ℕ × ℕ))) :
    List (String × (ℕ × ℕ)) → List (String × (ℕ × ℕ))
  | [] => tryMergeByteBuffer byteBuffer
  | (token, rng) :: rest =>
    if allBytes token then mergeConsecutiveBytes (byteBuffer ++ [(token, rng)]) rest
    else tryMergeByteBuffer byteBuffer ++ (token, rng) :: mergeConsecutiveBytes [] rest

def canonicalizeSequence (seq : List String) : List String × List (ℕ × ℕ) :=
  let merged := mergeEncodingArtifacts 0 0 seq
  (mergeConsecutiveBytes [] (merged.map fun x ↦ (canonicalToken x.1, x.2))).unzip

end Merging

end NemoRL.XToken.TokenAligner
