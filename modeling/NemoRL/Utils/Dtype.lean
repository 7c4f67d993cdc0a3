import Mathlib

namespace NemoRL.Utils

inductive Dtype
  | bool | uint8 | uint16 | uint32 | uint64 | int8 | int16 | int32 | int64
  | float8_e4m3fn | float8_e5m2 | float16 | bfloat16 | float32 | float64
  | complex32 | complex64
  deriving DecidableEq, Repr

def Dtype.name : Dtype → String
  | bool => "bool"
  | uint8 => "uint8"
  | uint16 => "uint16"
  | uint32 => "uint32"
  | uint64 => "uint64"
  | int8 => "int8"
  | int16 => "int16"
  | int32 => "int32"
  | int64 => "int64"
  | float8_e4m3fn => "float8_e4m3fn"
  | float8_e5m2 => "float8_e5m2"
  | float16 => "float16"
  | bfloat16 => "bfloat16"
  | float32 => "float32"
  | float64 => "float64"
  | complex32 => "complex32"
  | complex64 => "complex64"

def Dtype.all : List Dtype :=
  [bool, uint8, uint16, uint32, uint64, int8, int16, int32, int64, float8_e4m3fn, float8_e5m2,
    float16, bfloat16, float32, float64, complex32, complex64]

def dtypeFromName (name : String) : Option Dtype := Dtype.all.find? (·.name = name)

theorem dtypeFromName_name (d : Dtype) : dtypeFromName d.name = some d := by
  cases d <;> decide

def Dtype.itemsize : Dtype → ℕ
  | bool | uint8 | int8 | float8_e4m3fn | float8_e5m2 => 1
  | uint16 | int16 | float16 | bfloat16 => 2
  | uint32 | int32 | float32 | complex32 => 4
  | uint64 | int64 | float64 | complex64 => 8

def Dtype.isFloatingPoint : Dtype → Bool
  | float8_e4m3fn | float8_e5m2 | float16 | bfloat16 | float32 | float64 => true
  | _ => false

def integerDtypeForElementSize : ℕ → Option Dtype
  | 1 => some .uint8
  | 2 => some .int16
  | 4 => some .int32
  | 8 => some .int64
  | _ => none

/-- Whether the bits of an element are a NaN: beyond the infinities but for the
sign, or, in the type without infinities, all ones. -/
def Dtype.isNaN : Dtype → ℕ → Bool
  | float8_e4m3fn, bits => bits % 2 ^ 7 = 0x7f
  | float8_e5m2, bits => 0x7c < bits % 2 ^ 7
  | float16, bits => 0x7c00 < bits % 2 ^ 15
  | bfloat16, bits => 0x7f80 < bits % 2 ^ 15
  | float32, bits => 0x7f800000 < bits % 2 ^ 31
  | float64, bits => 0x7ff0000000000000 < bits % 2 ^ 63
  | _, _ => false

/-- The bits that a tensor is filled with when it is filled with NaN. -/
def Dtype.nanBits : Dtype → ℕ
  | float8_e4m3fn | float8_e5m2 => 0x7f
  | float16 => 0x7e00
  | bfloat16 => 0x7fc0
  | float32 => 0x7fc00000
  | float64 => 0x7ff8000000000000
  | _ => 0

theorem Dtype.isNaN_nanBits {d : Dtype} (h : d.isFloatingPoint = true) :
    d.isNaN d.nanBits = true := by
  cases d <;> first | rfl | cases h

/-- What the transfer of tensors asks of their element type. -/
class ElementType (δ : Type) where
  itemsize : δ → ℕ
  itemsize_pos : ∀ d, 0 < itemsize d

instance : ElementType Dtype := ⟨Dtype.itemsize, fun d ↦ by cases d <;> decide⟩

end NemoRL.Utils
