namespace ObjcLowering.Output.FixedPoint

def magnitudeBits : List String :=
  ["#ifndef _OZ_Q31_HELPERS",
   "#define _OZ_Q31_HELPERS",
   "",
   "static inline uint8_t _oz_bits_for_mag(uint32_t mag)",
   "\x7b",
   "\tif (mag == 0) \x7b",
   "\t\treturn 0;",
   "\t\x7d",
   "\tint bits = 0;",
   "\twhile (mag > 0) \x7b",
   "\t\tmag >>= 1;",
   "\t\tbits++;",
   "\t\x7d",
   "\treturn (bits > 31) ? 31 : (uint8_t)bits;",
   "\x7d"]

def floatShift : List String :=
  ["",
   "static inline uint8_t _oz_shift_for_float(float value)",
   "\x7b",
   "\tif (value == 0.0f) \x7b",
   "\t\treturn 0;",
   "\t\x7d",
   "\tfloat mag = (value < 0.0f) ? -value : value;",
   "\treturn _oz_bits_for_mag((uint32_t)mag);",
   "\x7d"]

def intShift : List String :=
  ["",
   "static inline uint8_t _oz_shift_for_int32(int32_t value)",
   "\x7b",
   "\tif (value == 0) \x7b",
   "\t\treturn 0;",
   "\t\x7d",
   "\tuint32_t mag = (value < 0) ? (uint32_t)(-(int64_t)value) : (uint32_t)value;",
   "\treturn _oz_bits_for_mag(mag);",
   "\x7d"]

def floatEncoding : List String :=
  ["",
   "static inline int32_t _oz_encode_float(float value, uint8_t shift)",
   "\x7b",
   "\tif (shift >= 31) \x7b",
   "\t\treturn (int32_t)(value * 0.5f);",
   "\t\x7d",
   "\treturn (int32_t)(value * (float)(1UL << (31 - shift)));",
   "\x7d"]

def intEncoding : List String :=
  ["",
   "static inline int32_t _oz_encode_int32(int32_t value, uint8_t shift)",
   "\x7b",
   "\treturn value << (31 - shift);",
   "\x7d"]

def floatDecoding : List String :=
  ["",
   "static inline float _oz_decode_float(int32_t raw, uint8_t shift)",
   "\x7b",
   "\tif (shift >= 31) \x7b",
   "\t\treturn (float)raw;",
   "\t\x7d",
   "\treturn (float)raw / (float)(1UL << (31 - shift));",
   "\x7d"]

def intDecoding : List String :=
  ["",
   "static inline int32_t _oz_decode_int32(int32_t raw, uint8_t shift)",
   "\x7b",
   "\tif (shift >= 31) \x7b",
   "\t\treturn raw;",
   "\t\x7d",
   "\treturn raw >> (31 - shift);",
   "\x7d"]

def alignment : List String :=
  ["",
   "static inline void _oz_align_shift(int32_t *raw_a, uint8_t shift_a,",
   "\t\t\t\t    int32_t *raw_b, uint8_t shift_b,",
   "\t\t\t\t    uint8_t *out_shift)",
   "\x7b",
   "\tif (shift_a == shift_b) \x7b",
   "\t\t*out_shift = shift_a;",
   "\t\treturn;",
   "\t\x7d",
   "\tif (shift_a > shift_b) \x7b",
   "\t\t*raw_b = *raw_b >> (shift_a - shift_b);",
   "\t\t*out_shift = shift_a;",
   "\t\x7d else \x7b",
   "\t\t*raw_a = *raw_a >> (shift_b - shift_a);",
   "\t\t*out_shift = shift_b;",
   "\t\x7d",
   "\x7d"]

def decimalWriting : List String :=
  ["/*",
   " * Integer-only Q31-to-string with configurable decimal precision.",
   " * No stdio, no float — pure integer math. Trailing zero removal.",
   " * precision: number of fractional digits (clamped to 0..14).",
   " */",
   "static inline int _oz_q31_to_str(int32_t raw, uint8_t shift, char *buf, int maxLen,",
   "\t\t\t\t int precision)",
   "\x7b",
   "\tif (maxLen <= 0) \x7b",
   "\t\treturn 0;",
   "\t\x7d",
   "",
   "\t/* Clamp precision to valid range */",
   "\tif (precision < 0) \x7b",
   "\t\tprecision = 0;",
   "\t\x7d else if (precision > 14) \x7b",
   "\t\tprecision = 14;",
   "\t\x7d",
   "",
   "\tint pos = 0;",
   "",
   "\tif (raw == 0) \x7b",
   "\t\tif (pos < maxLen) \x7b",
   "\t\t\tbuf[pos++] = '0';",
   "\t\t\x7d",
   "\t\treturn pos;",
   "\t\x7d",
   "",
   "\tint neg = (raw < 0);",
   "\tuint32_t abs_raw = neg ? (uint32_t)(-(int64_t)raw) : (uint32_t)raw;",
   "",
   "\tuint8_t frac_bits = (shift >= 31) ? 0 : (31 - shift);",
   "\tuint32_t int_part = abs_raw >> frac_bits;",
   "\tuint32_t frac_mask = frac_bits ? (((uint32_t)1 << frac_bits) - 1) : 0;",
   "\tuint32_t frac_part = abs_raw & frac_mask;",
   "",
   "\t/* Generate precision + 1 fractional digits (extra one for rounding) */",
   "\tchar frac_digits[15] = \x7b0\x7d;",
   "\tint n_digits = precision + 1;",
   "\tif (n_digits > 15) \x7b",
   "\t\tn_digits = 15;",
   "\t\x7d",
   "\tuint64_t frac = (uint64_t)frac_part;",
   "\tif (frac_bits > 0) \x7b",
   "\t\tfor (int i = 0; i < n_digits; i++) \x7b",
   "\t\t\tfrac *= 10;",
   "\t\t\tfrac_digits[i] = (char)(frac >> frac_bits);",
   "\t\t\tfrac &= ((uint64_t)1 << frac_bits) - 1;",
   "\t\t\x7d",
   "\t\x7d",
   "",
   "\t/* Round at precision-th digit using the extra digit */",
   "\tif (precision > 0 && frac_digits[precision] >= 5) \x7b",
   "\t\tint carry = 1;",
   "\t\tfor (int i = precision - 1; i >= 0 && carry; i--) \x7b",
   "\t\t\tint d = frac_digits[i] + carry;",
   "\t\t\tif (d >= 10) \x7b",
   "\t\t\t\tfrac_digits[i] = 0;",
   "\t\t\t\x7d else \x7b",
   "\t\t\t\tfrac_digits[i] = (char)d;",
   "\t\t\t\tcarry = 0;",
   "\t\t\t\x7d",
   "\t\t\x7d",
   "\t\tif (carry) \x7b",
   "\t\t\tint_part++;",
   "\t\t\x7d",
   "\t\x7d",
   "",
   "\t/* Find last non-zero fractional digit */",
   "\tint last_frac = -1;",
   "\tfor (int i = precision - 1; i >= 0; i--) \x7b",
   "\t\tif (frac_digits[i] != 0) \x7b",
   "\t\t\tlast_frac = i;",
   "\t\t\tbreak;",
   "\t\t\x7d",
   "\t\x7d",
   "",
   "\t/* Write sign */",
   "\tif (neg && pos < maxLen) \x7b",
   "\t\tbuf[pos++] = '-';",
   "\t\x7d",
   "",
   "\t/* Write integer part (reverse digit extraction) */",
   "\tchar int_buf[12];",
   "\tint int_len = 0;",
   "\tif (int_part == 0) \x7b",
   "\t\tint_buf[int_len++] = '0';",
   "\t\x7d else \x7b",
   "\t\tuint32_t tmp = int_part;",
   "\t\twhile (tmp > 0) \x7b",
   "\t\t\tint_buf[int_len++] = '0' + (char)(tmp % 10);",
   "\t\t\ttmp /= 10;",
   "\t\t\x7d",
   "\t\x7d",
   "\tfor (int i = int_len - 1; i >= 0 && pos < maxLen; i--) \x7b",
   "\t\tbuf[pos++] = int_buf[i];",
   "\t\x7d",
   "",
   "\t/* Write fractional part if any non-zero digits remain */",
   "\tif (last_frac >= 0) \x7b",
   "\t\tif (pos < maxLen) \x7b",
   "\t\t\tbuf[pos++] = '.';",
   "\t\t\x7d",
   "\t\tfor (int i = 0; i <= last_frac && pos < maxLen; i++) \x7b",
   "\t\t\tbuf[pos++] = '0' + frac_digits[i];",
   "\t\t\x7d",
   "\t\x7d",
   "",
   "\treturn pos;",
   "\x7d"]

def division : List String :=
  ["",
   "/*",
   " * Integer-only Q31 division using 64-bit long division.",
   " * No float decode/encode — works entirely in Q31 domain.",
   " */",
   "static inline void _oz_q31_div(int32_t a_raw, uint8_t a_shift,",
   "\t\t\t\tint32_t b_raw, uint8_t b_shift,",
   "\t\t\t\tint32_t *out_raw, uint8_t *out_shift)",
   "\x7b",
   "\tif (b_raw == 0) \x7b",
   "\t\t*out_raw = 0;",
   "\t\t*out_shift = 0;",
   "\t\treturn;",
   "\t\x7d",
   "",
   "\tint neg = ((a_raw ^ b_raw) < 0) ? 1 : 0;",
   "\tuint64_t a = (a_raw < 0) ? (uint64_t)(-(int64_t)a_raw) : (uint64_t)a_raw;",
   "\tuint64_t b = (b_raw < 0) ? (uint64_t)(-(int64_t)b_raw) : (uint64_t)b_raw;",
   "",
   "\t/*",
   "\t * Normalize both to Q31 (31 fractional bits):",
   "\t * a_norm = a << a_shift, b_norm = b << b_shift",
   "\t * Now value = x_norm / 2^31.",
   "\t */",
   "\tuint64_t a_norm = a << a_shift;",
   "\tuint64_t b_norm = b << b_shift;",
   "",
   "\t/* Integer part of quotient */",
   "\tuint64_t q_int = a_norm / b_norm;",
   "\tuint64_t q_rem = a_norm % b_norm;",
   "",
   "\t/* Saturate if result too large for Q31 */",
   "\tif (q_int > (uint64_t)INT32_MAX) \x7b",
   "\t\t*out_raw = neg ? INT32_MIN : INT32_MAX;",
   "\t\t*out_shift = 31;",
   "\t\treturn;",
   "\t\x7d",
   "",
   "\tuint8_t result_shift = _oz_bits_for_mag((uint32_t)q_int);",
   "\tuint8_t frac_bits = 31 - result_shift;",
   "",
   "\t/* Build result: integer part in upper bits */",
   "\tuint64_t result = q_int << frac_bits;",
   "",
   "\t/* Extract fractional bits via long division */",
   "\tfor (int i = (int)frac_bits - 1; i >= 0; i--) \x7b",
   "\t\tq_rem <<= 1;",
   "\t\tif (q_rem >= b_norm) \x7b",
   "\t\t\tresult |= ((uint64_t)1 << i);",
   "\t\t\tq_rem -= b_norm;",
   "\t\t\x7d",
   "\t\x7d",
   "",
   "\t/* Rounding: check next bit */",
   "\tq_rem <<= 1;",
   "\tif (q_rem >= b_norm) \x7b",
   "\t\tresult++;",
   "\t\x7d",
   "",
   "\tif (result > (uint64_t)INT32_MAX) \x7b",
   "\t\tresult = INT32_MAX;",
   "\t\x7d",
   "",
   "\t*out_raw = neg ? -(int32_t)result : (int32_t)result;",
   "\t*out_shift = result_shift;",
   "\x7d"]

def guardEnd : List String :=
  ["#endif /* _OZ_Q31_HELPERS */",
   ""]

def helpers : List String :=
  magnitudeBits ++ floatShift ++ intShift ++ floatEncoding ++ intEncoding ++ floatDecoding
    ++ intDecoding ++ alignment ++ decimalWriting ++ division ++ guardEnd

end ObjcLowering.Output.FixedPoint
