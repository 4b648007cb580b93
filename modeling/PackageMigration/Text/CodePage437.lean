import PackageMigration.Bytes
/-
  Text in code page 437, in which containers without a mark for UTF-8 give their names.

  * `Text.ofCodePage437`: the text that bytes stand for.
-/
namespace PackageMigration.Text

/-- The characters of the bytes from 128 on. -/
def upperHalf437 : Array Char :=
  ("ÇüéâäàåçêëèïîìÄÅÉæÆôöòûùÿÖÜ¢£¥₧ƒáíóúñÑªº¿⌐¬½¼¡«»░▒▓│┤╡╢╖╕╣║╗╝╜╛┐" ++
    "└┴┬├─┼╞╟╚╔╩╦╠═╬╧╨╤╥╙╘╒╓╫╪┘┌█▄▌▐▀αßΓπΣσµτΦΘΩδ∞φε∩≡±≥≤⌠⌡÷≈°∙·√ⁿ²■\u00A0").toList.toArray

/-- The character of a byte. -/
def char437 (b : UInt8) : Char :=
  if b < 0x80 then Char.ofNat b.toNat else upperHalf437.getD (b.toNat - 128) ' '

/-- The text that bytes stand for. -/
def ofCodePage437 (s : Bytes) : String := String.ofList (s.map char437)

end PackageMigration.Text
